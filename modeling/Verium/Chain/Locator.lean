import Verium.Chain.Forks
import Verium.Chain.State

/-!
Block locators. A locator lists entries of a chain from the tip to genesis with growing gaps, and
the other side looks for the first of them that lies on its own chain. The gap in front of an
entry is never larger than the way already walked, so what is found is at most as far below the
fork as the fork is below the tip.
-/

namespace Verium

open Lib

section Locator

/-- `CChain::operator[]`. -/
def CChain.entryAt (vChain : CChain) (nHeight : Nat) : Option BlockPtr :=
  vChain[nHeight]?.join

def CChain.genesis (vChain : CChain) : Option BlockPtr :=
  vChain.entryAt 0

variable (entry : BlockPtr → CBlockIndex)

/-- One step back of `GetLocator`: by the chain's index if possible, otherwise by the skip list. -/
def CChain.stepBack (vChain : CChain) (pindex : BlockPtr) (nHeight : Nat) :
    Result (Option BlockPtr) :=
  if vChain.contains entry pindex then .ok (vChain.entryAt nHeight)
  else getAncestor entry pindex nHeight

/-- The loop of `GetLocator`. The height falls in every round, which bounds their number. The
step is an `int` in the source; it is doubled no more once it exceeds the height. -/
def CChain.locatorLoop (vChain : CChain) :
    (fuel : Nat) → (pindex : Option BlockPtr) → (nStep : Nat) → (vHave : List UInt256) →
      Result (List UInt256)
  | 0, _, _, vHave => .ok vHave
  | _, none, _, vHave => .ok vHave
  | fuel + 1, some pindex, nStep, vHave => do
      let vHave := vHave ++ [(entry pindex).hashBlock]
      -- stop when we have added the genesis block
      if (entry pindex).nHeight = 0 then return vHave
      -- exponentially larger steps back, plus the genesis block
      let next ← vChain.stepBack entry pindex ((entry pindex).nHeight - nStep)
      locatorLoop vChain fuel next (if 10 < vHave.length then nStep * 2 else nStep) vHave

/-- `GetLocator(pindex)`, where null stands for the tip. -/
def CChain.getLocator (vChain : CChain) (pindex : Option BlockPtr) : Result (List UInt256) :=
  match pindex.or vChain.tip with
  | none => .ok []
  | some p => vChain.locatorLoop entry ((entry p).nHeight + 1) (some p) 1 []

def findForkInGlobalIndex (blockman : BlockManager) (chain : CChain) :
    (vHave : List UInt256) → Result (Option BlockPtr)
  | [] => .ok chain.genesis
  | hash :: rest =>
      match blockman.blockIndex hash with
      | none => findForkInGlobalIndex blockman chain rest
      | some pindex =>
          if chain.contains blockman.entry pindex then .ok (some pindex)
          else do
            if (← getAncestor blockman.entry pindex chain.height) = chain.tip then
              return chain.tip
            findForkInGlobalIndex blockman chain rest

end Locator

section GetLocator

variable {entry : BlockPtr → CBlockIndex} {S : BlockPtr → Prop} {vChain : CChain} {b p : BlockPtr}

theorem stepBack_ok (ht : BlockTree entry S) (hb : S b) (hchain : IsChainTo entry vChain b)
    (hp : IsAncestor entry p b) {nHeight : Nat} (hle : nHeight ≤ (entry p).nHeight) :
    ∃ q, vChain.stepBack entry p nHeight = .ok (some q) ∧ IsAncestor entry q b ∧
      (entry q).nHeight = nHeight := by
  have hpb := ht.graded.height_le hb hp
  obtain ⟨q, hget, hq, hheight⟩ := hchain.get_ancestor ht hb (hle.trans hpb)
  refine ⟨q, ?_, hq, hheight⟩
  rw [CChain.stepBack, if_pos (hchain.contains_iff.mpr hp), CChain.entryAt, hget]
  rfl

/-- The first entry of the list that is not above height `f` exists, it is at most as far below
`f` as `f` is below `t`, and it is at `f` if that is at most ten below `t`. -/
def LocatesFrom (entry : BlockPtr → CBlockIndex) (t f : Nat) (ps : List BlockPtr) : Prop :=
  ∃ above q below, ps = above ++ q :: below ∧ (∀ p ∈ above, f < (entry p).nHeight) ∧
    (entry q).nHeight ≤ f ∧ f - (entry q).nHeight ≤ t - f ∧
    (t - f ≤ 10 → (entry q).nHeight = f)

/-- The loop at an entry at height `h`, after `n` entries. The step is at most one more than the
way walked so far, and it is still one while that way is shorter than eleven. -/
structure StepBounds (t h nStep n : Nat) : Prop where
  below : h ≤ t
  pos : 0 < nStep
  walked : 0 < h → nStep ≤ t - h + 1
  single : nStep = 1 ∧ n = t - h ∨ 10 < t - h

theorem StepBounds.next {t h nStep n : Nat} (hs : StepBounds t h nStep n) (hpos : h ≠ 0) :
    StepBounds t (h - nStep) (if 10 < n + 1 then nStep * 2 else nStep) (n + 1) := by
  obtain ⟨hbelow, hstep, hwalked, hsingle⟩ := hs
  have hway := hwalked (Nat.pos_of_ne_zero hpos)
  split
  · exact ⟨by omega, by omega, by omega, by omega⟩
  · exact ⟨by omega, by omega, by omega, by omega⟩

/-- What `GetLocator` lists from an ancestor of the tip on. For the height `f` of a fork, either
the loop has not passed it, or it has just done so within the bound. -/
theorem locatorLoop_ok (ht : BlockTree entry S) (hb : S b) (hchain : IsChainTo entry vChain b)
    {fuel nStep : Nat} {vHave : List UInt256} (hp : IsAncestor entry p b)
    (hfuel : (entry p).nHeight < fuel)
    (hs : StepBounds (entry b).nHeight (entry p).nHeight nStep vHave.length) :
    ∃ ps, vChain.locatorLoop entry fuel (some p) nStep vHave =
        .ok (vHave ++ ps.map fun p => (entry p).hashBlock) ∧
      (∀ q ∈ ps, IsAncestor entry q b) ∧
      ∀ f ≤ (entry b).nHeight, ((entry p).nHeight < f → 10 < (entry b).nHeight - f ∧
        f - (entry p).nHeight ≤ (entry b).nHeight - f) →
        LocatesFrom entry (entry b).nHeight f ps := by
  induction fuel generalizing p nStep vHave with
  | zero => omega
  | succ fuel ih =>
    have hhere : ∀ rest : List BlockPtr, ∀ f ≤ (entry b).nHeight, (entry p).nHeight ≤ f →
        ((entry p).nHeight < f → 10 < (entry b).nHeight - f ∧
          f - (entry p).nHeight ≤ (entry b).nHeight - f) →
        LocatesFrom entry (entry b).nHeight f (p :: rest) := by
      intro rest f hf hle hpassed
      refine ⟨[], p, rest, rfl, fun q hq => absurd hq List.not_mem_nil, hle, ?_, ?_⟩
      · rcases hle.lt_or_eq with hlt | heq
        · exact (hpassed hlt).2
        · omega
      · intro hnear
        rcases hle.lt_or_eq with hlt | heq
        · have hfar := (hpassed hlt).1
          omega
        · exact heq
    rw [CChain.locatorLoop]
    by_cases hzero : (entry p).nHeight = 0
    · rw [if_pos hzero]
      refine ⟨[p], rfl, ?_, ?_⟩
      · intro q hq
        rw [List.mem_singleton.mp hq]
        exact hp
      · intro f hf hpassed
        exact hhere [] f hf (by omega) hpassed
    · rw [if_neg hzero]
      obtain ⟨q, hback, hq, hheight⟩ := stepBack_ok ht hb hchain hp
        (show (entry p).nHeight - nStep ≤ (entry p).nHeight from Nat.sub_le _ _)
      have hlen : (vHave ++ [(entry p).hashBlock]).length = vHave.length + 1 := by
        rw [List.length_append, List.length_singleton]
      have hnext := hs.next hzero
      rw [← hheight, ← hlen] at hnext
      have hpos := hs.pos
      obtain ⟨ps, hloop, hanc, hlocates⟩ := ih hq (by omega) hnext
      refine ⟨p :: ps, ?_, List.forall_mem_cons.mpr ⟨hp, hanc⟩, ?_⟩
      · rw [hback, ok_bind, hloop, List.append_assoc]
        rfl
      · intro f hf hpassed
        rcases Nat.lt_or_ge f (entry p).nHeight with hlt | hge
        · -- the fork is below the entry; if the step goes past it, the gap is small enough
          have hwithin : (entry q).nHeight < f → 10 < (entry b).nHeight - f ∧
              f - (entry q).nHeight ≤ (entry b).nHeight - f := by
            obtain ⟨hbelow, -, hwalked, hsingle⟩ := hs
            have hstep := hwalked (Nat.pos_of_ne_zero hzero)
            omega
          obtain ⟨above, r, below, hps, habove, hr⟩ := hlocates f hf hwithin
          refine ⟨p :: above, r, below, by rw [hps]; rfl, ?_, hr⟩
          exact List.forall_mem_cons.mpr ⟨hlt, habove⟩
        · exact hhere ps f hf hge hpassed

theorem getLocator_ok (ht : BlockTree entry S) (hb : S b) (hchain : IsChainTo entry vChain b) :
    ∃ ps, vChain.getLocator entry none = .ok (ps.map fun p => (entry p).hashBlock) ∧
      (∀ q ∈ ps, IsAncestor entry q b) ∧
      ∀ f ≤ (entry b).nHeight, LocatesFrom entry (entry b).nHeight f ps := by
  have hstart : StepBounds (entry b).nHeight (entry b).nHeight 1 ([] : List UInt256).length :=
    ⟨le_rfl, Nat.one_pos, fun _ => by omega, .inl ⟨rfl, by simp⟩⟩
  obtain ⟨ps, hloop, hanc, hlocates⟩ :=
    locatorLoop_ok ht hb hchain (.refl b) (Nat.lt_succ_self _) hstart
  refine ⟨ps, ?_, hanc, fun f hf => hlocates f hf fun hlt => by omega⟩
  rw [CChain.getLocator, hchain.tip_eq]
  exact hloop

end GetLocator

section FindFork

variable {blockman : BlockManager} {chain : CChain} {a b fork q : BlockPtr}

/-- The search through a list of entries of another chain, of which `q` is the first that is not
above the fork: it ends at `q`, or at the fork itself. -/
theorem findForkInGlobalIndex_ok (ht : BlockTree blockman.entry blockman.Holds)
    (ha : blockman.Holds a) (hb : blockman.Holds b) (hchain : IsChainTo blockman.entry chain a)
    (hfork : IsFork blockman.entry a b fork) {above : List BlockPtr} (below : List BlockPtr)
    (habove : ∀ p ∈ above, IsAncestor blockman.entry p b ∧
      (blockman.entry fork).nHeight < (blockman.entry p).nHeight)
    (hq : IsAncestor blockman.entry q b)
    (hlow : (blockman.entry q).nHeight ≤ (blockman.entry fork).nHeight) :
    ∃ r, findForkInGlobalIndex blockman chain
        ((above ++ q :: below).map fun p => (blockman.entry p).hashBlock) = .ok (some r) ∧
      (r = q ∨ r = fork) := by
  induction above with
  | nil =>
    have hfiled : blockman.blockIndex (blockman.entry q).hashBlock = some q :=
      ht.graded.ancestor_mem hb hq
    have honA : chain.contains blockman.entry q = true :=
      hchain.contains_iff.mpr ((ht.graded.ancestor_of_le hb hq hfork.ofEntry hlow).trans
        hfork.ofTip)
    refine ⟨q, ?_, .inl rfl⟩
    rw [List.nil_append, List.map_cons, findForkInGlobalIndex, hfiled]
    dsimp only
    rw [if_pos honA]
  | cons p above ih =>
    obtain ⟨⟨hp, hhigh⟩, habove⟩ := List.forall_mem_cons.mp habove
    obtain ⟨r, hfind, hr⟩ := ih habove
    have hSp := ht.graded.ancestor_mem hb hp
    have hfiled : blockman.blockIndex (blockman.entry p).hashBlock = some p := hSp
    have hoff : chain.contains blockman.entry p ≠ true := by
      rw [ne_eq, hchain.contains_iff]
      intro hpa
      have hle := hfork.highest p hpa hp
      omega
    rw [List.cons_append, List.map_cons, findForkInGlobalIndex, hfiled]
    dsimp only
    rw [if_neg hoff, hchain.height_eq, hchain.tip_eq]
    by_cases hlong : (blockman.entry a).nHeight ≤ (blockman.entry p).nHeight
    · obtain ⟨c, hget, hc, hheight⟩ := getAncestor_ok ht hSp hlong
      rw [hget, ok_bind]
      by_cases hca : c = a
      · -- the entry descends from the other tip, which then is the fork
        subst hca
        have hle := hfork.highest c (.refl c) (hc.trans hp)
        refine ⟨c, if_pos rfl, .inr ?_⟩
        have hge := ht.graded.height_le ha hfork.ofTip
        exact (ht.graded.eq_of_height ha hfork.ofTip (by omega)).symm
      · rw [if_neg (by simpa using hca)]
        exact ⟨r, hfind, hr⟩
    · have hnone : getAncestor blockman.entry p (blockman.entry a).nHeight = .ok none := by
        rw [getAncestor, if_pos (.inl (by omega))]
      rw [hnone, ok_bind, if_neg (by simp)]
      exact ⟨r, hfind, hr⟩

end FindFork

/-- For two chains with a common genesis, `FindForkInGlobalIndex` on the one with the locator of
the other returns an entry of both, at most as far below their fork as the fork is below the tip
of the located chain; it is the fork itself if the located chain is the beginning of the other,
or forks off at most ten blocks below its tip. -/
theorem locator_findsFork {blockman : BlockManager} {A B : CChain} {a b genesis : BlockPtr}
    (ht : BlockTree blockman.entry blockman.Holds) (ha : blockman.Holds a)
    (hb : blockman.Holds b) (hA : IsChainTo blockman.entry A a)
    (hB : IsChainTo blockman.entry B b) (hrootA : IsAncestor blockman.entry genesis a)
    (hrootB : IsAncestor blockman.entry genesis b) :
    ∃ vHave r fork, B.getLocator blockman.entry none = .ok vHave ∧
      findForkInGlobalIndex blockman A vHave = .ok (some r) ∧
      IsFork blockman.entry a b fork ∧
      A.contains blockman.entry r = true ∧ B.contains blockman.entry r = true ∧
      (blockman.entry fork).nHeight - (blockman.entry r).nHeight ≤
        (blockman.entry b).nHeight - (blockman.entry fork).nHeight ∧
      (B <+: A ∨ (blockman.entry b).nHeight - (blockman.entry fork).nHeight ≤ 10 → r = fork) := by
  obtain ⟨fork, -, hfork⟩ := lastCommonAncestor_isFork ht hb ha hrootB hrootA
  have hforkb := ht.graded.height_le hb hfork.ofEntry
  obtain ⟨ps, hlocator, hanc, hlocates⟩ := getLocator_ok ht hb hB
  obtain ⟨above, q, below, rfl, habove, hlow, hnear, hexact⟩ := hlocates _ hforkb
  obtain ⟨hancAbove, hancQ⟩ := List.forall_mem_append.mp hanc
  have hq := (List.forall_mem_cons.mp hancQ).1
  obtain ⟨r, hfind, hr⟩ := findForkInGlobalIndex_ok ht ha hb hA hfork below
    (fun p hp => ⟨hancAbove p hp, habove p hp⟩) hq hlow
  have hqfork : IsAncestor blockman.entry q fork :=
    ht.graded.ancestor_of_le hb hq hfork.ofEntry hlow
  refine ⟨_, r, fork, hlocator, hfind, hfork, ?_, ?_, ?_, ?_⟩
  · rw [hA.contains_iff]
    rcases hr with rfl | rfl
    · exact hqfork.trans hfork.ofTip
    · exact hfork.ofTip
  · rw [hB.contains_iff]
    rcases hr with rfl | rfl
    · exact hq
    · exact hfork.ofEntry
  · rcases hr with rfl | rfl
    · exact hnear
    · omega
  · intro hwhen
    have hclose : (blockman.entry b).nHeight - (blockman.entry fork).nHeight ≤ 10 := by
      rcases hwhen with hpre | hclose
      · -- the tip of the located chain is on the other one, so it is the fork
        have htipB := (hB.get _ _).mpr ⟨.refl b, rfl⟩
        have htipA : A[(blockman.entry b).nHeight]? = some (some b) := by
          obtain ⟨rest, rfl⟩ := hpre
          rw [List.getElem?_append_left (List.getElem?_eq_some_iff.mp htipB).1]
          exact htipB
        have hle := hfork.highest b ((hA.get _ _).mp htipA).1 (.refl b)
        omega
      · exact hclose
    rcases hr with rfl | rfl
    · exact ht.graded.eq_of_height (ht.graded.ancestor_mem hb hfork.ofEntry) hqfork
        (hexact hclose)
    · rfl

/-- The index of the four entries of `forkedEntry`. -/
def forkedBlockman : BlockManager where
  entry := forkedEntry
  blockIndex hash :=
    if hash = 77 then some 0 else if hash = 78 then some 1
    else if hash = 79 then some 2 else if hash = 80 then some 3 else none
  failedBlocks := []
  blocksUnlinked := []

theorem forkedBlockman_holds {p : BlockPtr} : forkedBlockman.Holds p ↔ p < 4 := by
  constructor
  · intro hp
    by_contra hlarge
    obtain ⟨n, rfl⟩ := Nat.exists_eq_add_of_le' (Nat.le_of_not_lt hlarge)
    have hthree : some 3 = some (n + 4) := hp
    cases hthree
  · intro hp
    interval_cases p <;> rfl

/-- The chain to entry 2, located from the chain to entry 3. -/
theorem forkedBlockman_locator :
    ∃ vHave r, CChain.getLocator forkedEntry [some 0, some 1, some 2] none = .ok vHave ∧
      findForkInGlobalIndex forkedBlockman [some 0, some 3] vHave = .ok (some r) ∧
      IsFork forkedEntry 3 2 r := by
  have hholds : forkedBlockman.Holds = (· < 4) := funext fun p => propext forkedBlockman_holds
  have ht : BlockTree forkedBlockman.entry forkedBlockman.Holds := by
    rw [hholds]
    exact forkedEntry_tree
  have hA : IsChainTo forkedEntry [some 0, some 3] 3 :=
    setTip_isChainTo forkedEntry_tree (.inl rfl) (by decide : 3 < 4)
  have hB : IsChainTo forkedEntry [some 0, some 1, some 2] 2 :=
    setTip_isChainTo forkedEntry_tree (.inl rfl) (by decide : 2 < 4)
  obtain ⟨vHave, r, fork, hlocator, hfind, hfork, -, -, -, hexact⟩ :=
    locator_findsFork ht (forkedBlockman_holds.mpr (by decide))
      (forkedBlockman_holds.mpr (by decide)) hA hB (forkedEntry_root 3 (by decide))
      (forkedEntry_root 2 (by decide))
  have hclose : (forkedBlockman.entry 2).nHeight - (forkedBlockman.entry fork).nHeight ≤ 10 :=
    le_trans (Nat.sub_le _ _) (by decide)
  rw [← hexact (.inr hclose)] at hfork
  exact ⟨vHave, r, hlocator, hfind, hfork⟩

end Verium
