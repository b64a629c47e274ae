import Verium.Lib.Iteration
import Verium.Lib.Lists
import Verium.Net.InFlight

/-!
The bookkeeping of block downloads is consistent in every state the node can reach: the map of
blocks in flight and the lists of the peers name the same list nodes, and the counters count
them. So none of the assertions of the bookkeeping fails.
-/

namespace Verium

open Lib

/-- The counters of a peer count the list nodes in its queue, which are distinct. -/
structure CNodeState.Consistent (queued : QueuedPtr → QueuedBlock) (state : CNodeState) : Prop where
  nodup : state.vBlocksInFlight.Nodup
  count : state.nBlocksInFlight = state.vBlocksInFlight.length
  validHeaders : state.nBlocksInFlightValidHeaders =
    state.vBlocksInFlight.countP fun it => (queued it).fValidatedHeaders

theorem CNodeState.Consistent.congr {state : CNodeState}
    {queued queued' : QueuedPtr → QueuedBlock} (hstate : state.Consistent queued)
    (h : ∀ it ∈ state.vBlocksInFlight,
      (queued' it).fValidatedHeaders = (queued it).fValidatedHeaders) :
    state.Consistent queued' where
  nodup := hstate.nodup
  count := hstate.count
  validHeaders := by
    rw [hstate.validHeaders, List.countP_congr]
    intro it hit
    rw [h it hit]

namespace NetState

/-- Whether a peer has a block in flight whose header was validated, as a number. -/
def validatedDownload (state : CNodeState) : Int :=
  (decide (state.nBlocksInFlightValidHeaders ≠ 0)).toInt

structure Consistent (s : NetState) : Prop where
  listed : ∀ {hash nodeid it}, s.mapBlocksInFlight.lookup hash = some (nodeid, it) →
    ∃ state, s.mapNodeState.lookup nodeid = some state ∧ it ∈ state.vBlocksInFlight ∧
      (s.queued it).hash = hash
  mapped : ∀ {nodeid state it}, s.mapNodeState.lookup nodeid = some state →
    it ∈ state.vBlocksInFlight →
      s.mapBlocksInFlight.lookup (s.queued it).hash = some (nodeid, it)
  fresh : ∀ {nodeid state it}, s.mapNodeState.lookup nodeid = some state →
    it ∈ state.vBlocksInFlight → it < s.nextQueued
  peer : ∀ {nodeid state}, s.mapNodeState.lookup nodeid = some state → state.Consistent s.queued
  preferred : s.nPreferredDownload = tally (·.fPreferredDownload.toInt) s.mapNodeState
  validated : s.nPeersWithValidatedDownloads = tally validatedDownload s.mapNodeState
  protect : s.outboundPeersWithProtectFromDisconnect =
    tally (·.mProtect.toInt) s.mapNodeState

variable {s s' : NetState} {nNow : Int} {hash : UInt256} {nodeid : NodeId} {it : QueuedPtr}
  {state : CNodeState} {pindex : Option BlockPtr} {pit : Bool}
  {partialBlock : PartiallyDownloadedBlock}

theorem consistent_empty : Consistent empty where
  listed h := by cases h
  mapped h := by cases h
  fresh h := by cases h
  peer h := by cases h
  preferred := rfl
  validated := rfl
  protect := rfl

theorem stateOf_eq_ok : s.stateOf nodeid = .ok state ↔
    s.mapNodeState.lookup nodeid = some state := by
  unfold stateOf
  cases s.mapNodeState.lookup nodeid <;> simp

theorem inFlightFrom_eq_some : s.inFlightFrom nodeid hash = some it ↔
    s.mapBlocksInFlight.lookup hash = some (nodeid, it) := by
  unfold inFlightFrom
  cases s.mapBlocksInFlight.lookup hash with
  | none => simp
  | some entry =>
    obtain ⟨nodeid', it'⟩ := entry
    simp [Prod.ext_iff]

theorem Consistent.hash_eq (hs : s.Consistent)
    (h : s.mapBlocksInFlight.lookup hash = some (nodeid, it)) : (s.queued it).hash = hash := by
  obtain ⟨-, -, -, heq⟩ := hs.listed h
  exact heq

theorem Consistent.hash_ne {nodeid' : NodeId} {it' : QueuedPtr} (hs : s.Consistent)
    (h : s.mapBlocksInFlight.lookup hash = some (nodeid, it))
    (hstate : s.mapNodeState.lookup nodeid' = some state) (hit : it' ∈ state.vBlocksInFlight)
    (hne : (nodeid', it') ≠ (nodeid, it)) : (s.queued it').hash ≠ hash := by
  intro heq
  have hmapped := hs.mapped hstate hit
  rw [heq, h] at hmapped
  exact hne (Option.some_inj.mp hmapped).symm

/-- What a peer has queued is found after the state of one peer has changed. -/
theorem exists_insert {m : AList fun _ : NodeId => CNodeState} {state' new : CNodeState}
    {nodeid' : NodeId} {P : Prop} (hstate : m.lookup nodeid = some state)
    (hstate' : m.lookup nodeid' = some state') (hit : it ∈ state'.vBlocksInFlight ∧ P)
    (hkeep : it ∈ state.vBlocksInFlight → it ∈ new.vBlocksInFlight) :
    ∃ after, (m.insert nodeid new).lookup nodeid' = some after ∧
      it ∈ after.vBlocksInFlight ∧ P := by
  rcases eq_or_ne nodeid' nodeid with rfl | hnode
  · rw [hstate] at hstate'
    cases hstate'
    exact ⟨_, AList.lookup_insert _, hit.imp_left hkeep⟩
  · exact ⟨state', (AList.lookup_insert_ne hnode).trans hstate', hit⟩

theorem Consistent.dequeue_peer (hstate : state.Consistent s.queued)
    (hit : it ∈ state.vBlocksInFlight) (nNow : Int) :
    CNodeState.Consistent s.queued
      { state with
        nBlocksInFlightValidHeaders :=
          state.nBlocksInFlightValidHeaders - (s.queued it).fValidatedHeaders.toInt
        nDownloadingSince :=
          if state.vBlocksInFlight.head? = some it then max state.nDownloadingSince nNow
          else state.nDownloadingSince
        vBlocksInFlight := state.vBlocksInFlight.erase it
        nBlocksInFlight := state.nBlocksInFlight - 1
        nStallingSince := 0 } where
  nodup := hstate.nodup.erase it
  count := by
    have hlen := List.length_erase_add_one hit
    have hcount := hstate.count
    dsimp only
    omega
  validHeaders := by
    have hperm := (List.perm_cons_erase hit).countP_eq fun it => (s.queued it).fValidatedHeaders
    rw [List.countP_cons] at hperm
    have hcount := hstate.validHeaders
    dsimp only
    cases hflag : (s.queued it).fValidatedHeaders <;>
      simp only [hflag, Bool.toInt, cond_true, cond_false] at hperm ⊢ <;> grind

theorem validatedDownload_dequeue {n : Int} {flag : Bool} (hn : 0 ≤ n - flag.toInt) :
    (decide (n - flag.toInt ≠ 0)).toInt =
      (decide (n ≠ 0)).toInt - (decide (n - flag.toInt = 0) && flag).toInt := by
  cases flag with
  | false => simp [Bool.toInt]
  | true =>
    simp only [Bool.toInt, cond_true] at hn
    have hpos : n ≠ 0 := by omega
    rcases eq_or_ne (n - 1) 0 with h | h <;> simp [Bool.toInt, h, hpos]

theorem Consistent.dequeue (hs : s.Consistent)
    (hmap : s.mapBlocksInFlight.lookup hash = some (nodeid, it))
    (hstate : s.mapNodeState.lookup nodeid = some state) :
    (s.dequeue nNow hash nodeid it state).Consistent := by
  obtain ⟨_, hstate', hit, hhash⟩ := hs.listed hmap
  rw [hstate] at hstate'
  cases hstate'
  have hpeer := Consistent.dequeue_peer (hs.peer hstate) hit nNow
  constructor
  case listed =>
    intro hash' nodeid' it' h
    obtain ⟨hne, h⟩ := lookup_erase_eq_some.mp h
    obtain ⟨state', hstate', hit', hhash'⟩ := hs.listed h
    have hne' : it' ≠ it := by
      rintro rfl
      exact hne (hhash'.symm.trans hhash)
    exact exists_insert hstate hstate' ⟨hit', hhash'⟩ (List.mem_erase_of_ne hne').mpr
  case mapped =>
    intro nodeid' state' it' hlookup hmem
    apply lookup_erase_eq_some.mpr
    rcases lookup_insert_eq_some.mp hlookup with ⟨rfl, rfl⟩ | ⟨hnode, hlookup⟩
    · obtain ⟨hne, hmem⟩ := (hs.peer hstate).nodup.mem_erase_iff.mp hmem
      refine ⟨?_, hs.mapped hstate hmem⟩
      exact hs.hash_ne hmap hstate hmem fun h => hne (Prod.ext_iff.mp h).2
    · refine ⟨?_, hs.mapped hlookup hmem⟩
      exact hs.hash_ne hmap hlookup hmem fun h => hnode (Prod.ext_iff.mp h).1
  case fresh =>
    intro nodeid' state' it' hlookup hmem
    rcases lookup_insert_eq_some.mp hlookup with ⟨rfl, rfl⟩ | ⟨-, hlookup⟩
    · exact hs.fresh hstate (List.mem_of_mem_erase hmem)
    · exact hs.fresh hlookup hmem
  case peer =>
    intro nodeid' state' hlookup
    rcases lookup_insert_eq_some.mp hlookup with ⟨rfl, rfl⟩ | ⟨-, hlookup⟩
    · exact hpeer
    · exact hs.peer hlookup
  case preferred => exact hs.preferred.trans (tally_insert_same hstate rfl).symm
  case validated =>
    have hnonneg := hpeer.validHeaders.symm ▸ Int.natCast_nonneg _
    have hstep := validatedDownload_dequeue hnonneg
    rw [NetState.dequeue, tally_insert_old hstate]
    simp only [validatedDownload, hstep, hs.validated]
    abel
  case protect => exact hs.protect.trans (tally_insert_same hstate rfl).symm

/-- What `MarkBlockAsReceived` leaves: the same state without the block. -/
structure Received (hash : UInt256) (s s' : NetState) : Prop where
  consistent : s'.Consistent
  lookup : ∀ {hash' entry}, s'.mapBlocksInFlight.lookup hash' = some entry →
    hash' ≠ hash ∧ s.mapBlocksInFlight.lookup hash' = some entry
  queued : s'.queued = s.queued
  nextQueued : s'.nextQueued = s.nextQueued
  peers : ∀ nodeid, nodeid ∈ s'.mapNodeState ↔ nodeid ∈ s.mapNodeState

theorem Consistent.markBlockAsReceived (hs : s.Consistent) (nNow : Int) (hash : UInt256) :
    ∃ b s', s.markBlockAsReceived nNow hash = .ok (b, s') ∧ Received hash s s' := by
  unfold NetState.markBlockAsReceived
  cases hmap : s.mapBlocksInFlight.lookup hash with
  | none =>
    refine ⟨false, s, rfl, hs, ?_, rfl, rfl, fun _ => Iff.rfl⟩
    intro hash' entry h
    refine ⟨?_, h⟩
    rintro rfl
    rw [hmap] at h
    cases h
  | some entry =>
    obtain ⟨nodeid, it⟩ := entry
    obtain ⟨state, hstate, -, -⟩ := hs.listed hmap
    have hmem : nodeid ∈ s.mapNodeState := AList.lookup_isSome.mp (by rw [hstate]; rfl)
    dsimp only
    rw [stateOf_eq_ok.mpr hstate]
    refine ⟨true, _, rfl, hs.dequeue hmap hstate, lookup_erase_eq_some.mp, rfl, rfl, ?_⟩
    intro nodeid'
    rw [NetState.dequeue, AList.mem_insert]
    constructor
    · rintro (rfl | h)
      · exact hmem
      · exact h
    · exact .inr

theorem validatedDownload_enqueue {n : Int} (flag : Bool) (hn : 0 ≤ n) :
    (decide (n + flag.toInt ≠ 0)).toInt =
      (decide (n ≠ 0)).toInt + (decide (n + flag.toInt = 1) && flag).toInt := by
  cases flag with
  | false => simp [Bool.toInt]
  | true =>
    have hpos : n + 1 ≠ 0 := by omega
    rcases eq_or_ne n 0 with rfl | h
    · simp [Bool.toInt]
    · simp [Bool.toInt, h, hpos]

theorem Consistent.enqueue (hs : s.Consistent) (hnew : s.mapBlocksInFlight.lookup hash = none)
    (hstate : s.mapNodeState.lookup nodeid = some state) :
    (s.enqueue nNow nodeid hash pindex pit state).Consistent := by
  -- The list nodes in use are older than the new one.
  have hold : ∀ {nodeid' state' it'}, s.mapNodeState.lookup nodeid' = some state' →
      it' ∈ state'.vBlocksInFlight →
      (s.enqueue nNow nodeid hash pindex pit state).queued it' = s.queued it' := by
    intro nodeid' state' it' hlookup hmem
    exact Function.update_of_ne (Nat.ne_of_lt (hs.fresh hlookup hmem)) _ _
  have hself : ((s.enqueue nNow nodeid hash pindex pit state).queued s.nextQueued) =
      ⟨hash, pindex, pindex.isSome, if pit then some .new else none⟩ :=
    Function.update_self _ _ _
  constructor
  case listed =>
    intro hash' nodeid' it' h
    rcases lookup_insert_eq_some.mp h with ⟨rfl, hentry⟩ | ⟨-, h⟩
    · cases hentry
      refine ⟨_, AList.lookup_insert _, List.mem_append_right _ List.mem_cons_self, ?_⟩
      rw [hself]
    · obtain ⟨state', hstate', hit', hhash'⟩ := hs.listed h
      rw [← hold hstate' hit'] at hhash'
      exact exists_insert hstate hstate' ⟨hit', hhash'⟩ (List.mem_append_left _)
  case mapped =>
    have hkeep : ∀ {nodeid' state' it'}, s.mapNodeState.lookup nodeid' = some state' →
        it' ∈ state'.vBlocksInFlight →
        (s.mapBlocksInFlight.insert hash (nodeid, s.nextQueued)).lookup (s.queued it').hash =
          some (nodeid', it') := by
      intro nodeid' state' it' hlookup hmem
      have h := hs.mapped hlookup hmem
      apply lookup_insert_eq_some.mpr
      refine .inr ⟨?_, h⟩
      intro heq
      rw [heq, hnew] at h
      cases h
    intro nodeid' state' it' hlookup hmem
    rcases lookup_insert_eq_some.mp hlookup with ⟨rfl, rfl⟩ | ⟨-, hlookup⟩
    · rcases List.mem_append.mp hmem with hmem | hmem
      · rw [hold hstate hmem]
        exact hkeep hstate hmem
      · rw [List.mem_singleton.mp hmem, hself]
        exact AList.lookup_insert _
    · rw [hold hlookup hmem]
      exact hkeep hlookup hmem
  case fresh =>
    intro nodeid' state' it' hlookup hmem
    rcases lookup_insert_eq_some.mp hlookup with ⟨rfl, rfl⟩ | ⟨-, hlookup⟩
    · rcases List.mem_append.mp hmem with hmem | hmem
      · exact Nat.lt_succ_of_lt (hs.fresh hstate hmem)
      · rw [List.mem_singleton.mp hmem]
        exact Nat.lt_succ_self _
    · exact Nat.lt_succ_of_lt (hs.fresh hlookup hmem)
  case peer =>
    have hkeep : ∀ {nodeid' state'}, s.mapNodeState.lookup nodeid' = some state' →
        state'.Consistent (s.enqueue nNow nodeid hash pindex pit state).queued := by
      intro nodeid' state' hlookup
      apply (hs.peer hlookup).congr
      intro it' hit'
      rw [hold hlookup hit']
    intro nodeid' state' hlookup
    rcases lookup_insert_eq_some.mp hlookup with ⟨rfl, rfl⟩ | ⟨-, hlookup⟩
    · have hpeer := hkeep hstate
      constructor
      · apply List.Nodup.append hpeer.nodup (List.nodup_singleton _)
        rw [List.disjoint_singleton]
        intro hmem
        exact absurd (hs.fresh hstate hmem) (lt_irrefl _)
      · dsimp only
        rw [hpeer.count, List.length_append]
        rfl
      · dsimp only
        rw [hpeer.validHeaders, List.countP_append, List.countP_singleton, hself]
        cases pindex <;> simp [Bool.toInt]
    · exact hkeep hlookup
  case preferred => exact hs.preferred.trans (tally_insert_same hstate rfl).symm
  case validated =>
    have hnonneg := (hs.peer hstate).validHeaders.symm ▸ Int.natCast_nonneg _
    have hstep := validatedDownload_enqueue pindex.isSome hnonneg
    rw [NetState.enqueue, tally_insert_old hstate]
    simp only [validatedDownload, hstep, hs.validated]
    abel
  case protect => exact hs.protect.trans (tally_insert_same hstate rfl).symm

/-- What `MarkBlockAsInFlight` leaves: the block is in flight from the peer, at a new list node
unless it was so before; other blocks are in flight as they were. -/
structure Requested (nodeid : NodeId) (hash : UInt256) (pit isNew : Bool) (it : QueuedPtr)
    (s s' : NetState) : Prop where
  consistent : s'.Consistent
  inFlight : s'.mapBlocksInFlight.lookup hash = some (nodeid, it)
  partialBlock : isNew → (s'.queued it).partialBlock = if pit then some .new else none
  same : ¬ isNew → s' = s
  others : ∀ {hash' nodeid' it'}, hash' ≠ hash →
    s'.mapBlocksInFlight.lookup hash' = some (nodeid', it') →
      s.mapBlocksInFlight.lookup hash' = some (nodeid', it') ∧ s'.queued it' = s.queued it'

theorem Consistent.markBlockAsInFlight (hs : s.Consistent) (hpeer : nodeid ∈ s.mapNodeState)
    (nNow : Int) (hash : UInt256) (pindex : Option BlockPtr) (pit : Bool) :
    ∃ isNew it s', s.markBlockAsInFlight nNow nodeid hash pindex pit = .ok (isNew, it, s') ∧
      Requested nodeid hash pit isNew it s s' := by
  obtain ⟨state, hstate⟩ := Option.isSome_iff_exists.mp (AList.lookup_isSome.mpr hpeer)
  unfold NetState.markBlockAsInFlight
  rw [stateOf_eq_ok.mpr hstate, ok_bind]
  cases hfrom : s.inFlightFrom nodeid hash with
  | some it =>
    refine ⟨false, it, s, rfl, hs, inFlightFrom_eq_some.mp hfrom, ?_, fun _ => rfl, ?_⟩
    · intro h
      cases h
    · intro hash' nodeid' it' _ h
      exact ⟨h, rfl⟩
  | none =>
    obtain ⟨b, s₁, hreceived, h₁⟩ := hs.markBlockAsReceived nNow hash
    obtain ⟨state₁, hstate₁⟩ :=
      Option.isSome_iff_exists.mp (AList.lookup_isSome.mpr ((h₁.peers nodeid).mpr hpeer))
    have hnew : s₁.mapBlocksInFlight.lookup hash = none := by
      cases hlookup : s₁.mapBlocksInFlight.lookup hash with
      | none => rfl
      | some entry => exact absurd rfl (h₁.lookup hlookup).1
    dsimp only
    rw [hreceived, ok_bind, stateOf_eq_ok.mpr hstate₁, ok_bind]
    refine ⟨true, _, _, rfl, h₁.consistent.enqueue hnew hstate₁, AList.lookup_insert _, ?_, ?_,
      ?_⟩
    · intro _
      simp [NetState.enqueue]
    · intro h
      exact absurd rfl h
    · intro hash' nodeid' it' hne h
      have h := (AList.lookup_insert_ne hne).symm.trans h
      obtain ⟨state', hstate', hit', -⟩ := h₁.consistent.listed h
      refine ⟨(h₁.lookup h).2, ?_⟩
      rw [← h₁.queued]
      exact Function.update_of_ne (Nat.ne_of_lt (h₁.consistent.fresh hstate' hit')) _ _

theorem Consistent.initializeNode (hs : s.Consistent) (nodeid : NodeId) :
    (s.initializeNode nodeid).Consistent := by
  unfold NetState.initializeNode
  split
  · exact hs
  · next hnew =>
    -- The new peer has nothing queued and counts for nothing.
    have hcases : ∀ {nodeid' state'},
        (s.mapNodeState.insert nodeid .new).lookup nodeid' = some state' →
        state' = .new ∨ s.mapNodeState.lookup nodeid' = some state' := by
      intro nodeid' state' h
      rcases lookup_insert_eq_some.mp h with ⟨-, h⟩ | ⟨-, h⟩
      · exact .inl h.symm
      · exact .inr h
    constructor
    case listed =>
      intro hash' nodeid' it' h
      obtain ⟨state', hstate', hrest⟩ := hs.listed h
      have hne : nodeid' ≠ nodeid := by
        rintro rfl
        exact hnew (AList.lookup_isSome.mp (by rw [hstate']; rfl))
      exact ⟨state', (AList.lookup_insert_ne hne).trans hstate', hrest⟩
    case mapped =>
      intro nodeid' state' it' h hmem
      rcases hcases h with rfl | h
      · cases hmem
      · exact hs.mapped h hmem
    case fresh =>
      intro nodeid' state' it' h hmem
      rcases hcases h with rfl | h
      · cases hmem
      · exact hs.fresh h hmem
    case peer =>
      intro nodeid' state' h
      rcases hcases h with rfl | h
      · exact ⟨List.nodup_nil, rfl, rfl⟩
      · exact hs.peer h
    case preferred =>
      rw [tally_insert_new hnew, ← hs.preferred]
      exact (add_zero _).symm
    case validated =>
      rw [tally_insert_new hnew, ← hs.validated]
      exact (add_zero _).symm
    case protect =>
      rw [tally_insert_new hnew, ← hs.protect]
      exact (add_zero _).symm

theorem Consistent.setFlags (hs : s.Consistent)
    (hstate : s.mapNodeState.lookup nodeid = some state) {preferred protect : Bool}
    {nPreferred nProtect : Int} (hpreferred : nPreferred =
      s.nPreferredDownload - state.fPreferredDownload.toInt + preferred.toInt)
    (hprotect : nProtect =
      s.outboundPeersWithProtectFromDisconnect - state.mProtect.toInt + protect.toInt) :
    Consistent { s with
      mapNodeState := s.mapNodeState.insert nodeid
        { state with fPreferredDownload := preferred, mProtect := protect }
      nPreferredDownload := nPreferred
      outboundPeersWithProtectFromDisconnect := nProtect } := by
  constructor
  case listed =>
    intro hash' nodeid' it' h
    obtain ⟨state', hstate', hrest⟩ := hs.listed h
    exact exists_insert hstate hstate' hrest id
  case mapped =>
    intro nodeid' state' it' h hmem
    rcases lookup_insert_eq_some.mp h with ⟨rfl, rfl⟩ | ⟨-, h⟩
    · exact hs.mapped hstate hmem
    · exact hs.mapped h hmem
  case fresh =>
    intro nodeid' state' it' h hmem
    rcases lookup_insert_eq_some.mp h with ⟨rfl, rfl⟩ | ⟨-, h⟩
    · exact hs.fresh hstate hmem
    · exact hs.fresh h hmem
  case peer =>
    intro nodeid' state' h
    rcases lookup_insert_eq_some.mp h with ⟨rfl, rfl⟩ | ⟨-, h⟩
    · have hpeer := hs.peer hstate
      exact ⟨hpeer.nodup, hpeer.count, hpeer.validHeaders⟩
    · exact hs.peer h
  case preferred =>
    rw [tally_insert_old hstate, ← hs.preferred]
    exact hpreferred
  case validated => exact hs.validated.trans (tally_insert_same hstate rfl).symm
  case protect =>
    rw [tally_insert_old hstate, ← hs.protect]
    exact hprotect

theorem Consistent.updatePreferredDownload (hs : s.Consistent)
    (hpeer : nodeid ∈ s.mapNodeState) (preferred : Bool) :
    ∃ s', s.updatePreferredDownload nodeid preferred = .ok s' ∧ s'.Consistent ∧
      s'.mapBlocksInFlight = s.mapBlocksInFlight ∧ s'.queued = s.queued := by
  obtain ⟨state, hstate⟩ := Option.isSome_iff_exists.mp (AList.lookup_isSome.mpr hpeer)
  unfold NetState.updatePreferredDownload
  rw [stateOf_eq_ok.mpr hstate, ok_bind]
  exact ⟨_, rfl, hs.setFlags hstate rfl (sub_add_cancel _ _).symm, rfl, rfl⟩

theorem Consistent.protectFromDisconnect (hs : s.Consistent) (hpeer : nodeid ∈ s.mapNodeState) :
    ∃ s', s.protectFromDisconnect nodeid = .ok s' ∧ s'.Consistent ∧
      s'.mapBlocksInFlight = s.mapBlocksInFlight ∧ s'.queued = s.queued := by
  obtain ⟨state, hstate⟩ := Option.isSome_iff_exists.mp (AList.lookup_isSome.mpr hpeer)
  unfold NetState.protectFromDisconnect
  rw [stateOf_eq_ok.mpr hstate, ok_bind]
  split
  · next h =>
    refine ⟨_, rfl, hs.setFlags hstate (sub_add_cancel _ _).symm ?_, rfl, rfl⟩
    rw [Bool.eq_false_iff.mpr h.2]
    exact congrArg (· + 1) (sub_zero _).symm
  · exact ⟨s, rfl, hs, rfl, rfl⟩

theorem lookup_foldl_erase {queued : QueuedPtr → QueuedBlock}
    {m : AList fun _ : UInt256 => NodeId × QueuedPtr} {l : List QueuedPtr}
    {entry : NodeId × QueuedPtr} :
    (l.foldl (fun m it => m.erase (queued it).hash) m).lookup hash = some entry ↔
      (∀ it ∈ l, (queued it).hash ≠ hash) ∧ m.lookup hash = some entry := by
  induction l generalizing m with
  | nil => simp
  | cons it l ih =>
    rw [List.foldl_cons, ih, lookup_erase_eq_some, List.forall_mem_cons]
    constructor
    · rintro ⟨h, hne, hm⟩
      exact ⟨⟨hne.symm, h⟩, hm⟩
    · rintro ⟨⟨hne, h⟩, hm⟩
      exact ⟨h, hne.symm, hm⟩

theorem Consistent.dropNode (hs : s.Consistent)
    (hstate : s.mapNodeState.lookup nodeid = some state) :
    (s.dropNode nodeid state).Consistent := by
  constructor
  case listed =>
    intro hash' nodeid' it' h
    obtain ⟨hdropped, h⟩ := lookup_foldl_erase.mp h
    obtain ⟨state', hstate', hit', hhash'⟩ := hs.listed h
    refine ⟨state', lookup_erase_eq_some.mpr ⟨?_, hstate'⟩, hit', hhash'⟩
    rintro rfl
    rw [hstate] at hstate'
    cases hstate'
    exact hdropped it' hit' hhash'
  case mapped =>
    intro nodeid' state' it' h hmem
    obtain ⟨hne, h⟩ := lookup_erase_eq_some.mp h
    have hmapped := hs.mapped h hmem
    refine lookup_foldl_erase.mpr ⟨?_, hmapped⟩
    intro it hit
    exact hs.hash_ne hmapped hstate hit fun heq => hne (Prod.ext_iff.mp heq).1.symm
  case fresh =>
    intro nodeid' state' it' h hmem
    exact hs.fresh (lookup_erase_eq_some.mp h).2 hmem
  case peer =>
    intro nodeid' state' h
    exact hs.peer (lookup_erase_eq_some.mp h).2
  case preferred =>
    change s.nPreferredDownload - _ = _
    rw [NetState.dropNode, tally_erase hstate, hs.preferred]
  case validated =>
    change s.nPeersWithValidatedDownloads - _ = _
    rw [NetState.dropNode, tally_erase hstate, hs.validated]
    rfl
  case protect =>
    change s.outboundPeersWithProtectFromDisconnect - _ = _
    rw [NetState.dropNode, tally_erase hstate, hs.protect]

theorem toInt_nonneg (b : Bool) : 0 ≤ b.toInt := by
  cases b <;> decide

theorem Consistent.assertIdle (hs : s.Consistent) (hnone : s.mapNodeState.keys = []) :
    s.assertIdle = .ok () := by
  have hempty : s.mapBlocksInFlight.keys = [] := by
    apply List.eq_nil_iff_forall_not_mem.mpr
    intro hash hmem
    obtain ⟨⟨nodeid, it⟩, h⟩ := Option.isSome_iff_exists.mp (AList.lookup_isSome.mpr hmem)
    obtain ⟨state, hstate, -⟩ := hs.listed h
    have hpeer : nodeid ∈ s.mapNodeState.keys :=
      AList.lookup_isSome.mp (by rw [hstate]; rfl)
    rw [hnone] at hpeer
    cases hpeer
  unfold NetState.assertIdle
  rw [assertThat_of hempty, ok_bind,
    assertThat_of (hs.preferred.trans (tally_of_keys_nil hnone)), ok_bind,
    assertThat_of (hs.validated.trans (tally_of_keys_nil hnone)), ok_bind,
    assertThat_of (hs.protect.trans (tally_of_keys_nil hnone))]

theorem Consistent.finalizeNode (hs : s.Consistent) (hpeer : nodeid ∈ s.mapNodeState) :
    ∃ state, s.mapNodeState.lookup nodeid = some state ∧
      s.finalizeNode nodeid = .ok (s.dropNode nodeid state) := by
  obtain ⟨state, hstate⟩ := Option.isSome_iff_exists.mp (AList.lookup_isSome.mpr hpeer)
  have hs' := hs.dropNode hstate
  refine ⟨state, hstate, ?_⟩
  have hvalidated : 0 ≤ (s.dropNode nodeid state).nPeersWithValidatedDownloads := by
    rw [hs'.validated]
    exact tally_nonneg fun _ => toInt_nonneg _
  have hprotect : 0 ≤ (s.dropNode nodeid state).outboundPeersWithProtectFromDisconnect := by
    rw [hs'.protect]
    exact tally_nonneg fun _ => toInt_nonneg _
  have hidle : checkWhen ((s.dropNode nodeid state).mapNodeState.keys = [])
      (s.dropNode nodeid state).assertIdle = .ok () :=
    checkWhen_eq_ok.mpr hs'.assertIdle
  unfold NetState.finalizeNode
  rw [stateOf_eq_ok.mpr hstate, ok_bind]
  dsimp only
  rw [assertThat_of hvalidated, ok_bind, assertThat_of hprotect, ok_bind, hidle]
  rfl

theorem Consistent.setPartialBlock (hs : s.Consistent) :
    (s.setPartialBlock it partialBlock).Consistent := by
  have hsame : ∀ it', ((s.setPartialBlock it partialBlock).queued it').hash =
      (s.queued it').hash ∧ ((s.setPartialBlock it partialBlock).queued it').fValidatedHeaders =
      (s.queued it').fValidatedHeaders := by
    intro it'
    rcases eq_or_ne it' it with rfl | hne
    · simp [NetState.setPartialBlock]
    · simp [NetState.setPartialBlock, hne]
  constructor
  case listed =>
    intro hash' nodeid' it' h
    rw [(hsame it').1]
    exact hs.listed h
  case mapped =>
    intro nodeid' state' it' h hmem
    rw [(hsame it').1]
    exact hs.mapped h hmem
  case fresh => exact hs.fresh
  case peer =>
    intro nodeid' state' h
    exact (hs.peer h).congr fun it' _ => (hsame it').2
  case preferred => exact hs.preferred
  case validated => exact hs.validated
  case protect => exact hs.protect

end NetState

end Verium
