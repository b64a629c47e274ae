import Verium.Net.InFlightSpec

/-!
Runs of the bookkeeping of block downloads: peers connect and are finalized, blocks are marked as
in flight and as received. In every state such a run reaches, the map of blocks in flight and the
queues of the peers correspond, and the counters are the numbers they stand for.
-/

namespace Verium

open Lib

/-- A call that works on the bookkeeping. -/
inductive DownloadCall where
  | initializeNode (nodeid : NodeId)
  | finalizeNode (nodeid : NodeId)
  | updatePreferredDownload (nodeid : NodeId) (preferred : Bool)
  | protectFromDisconnect (nodeid : NodeId)
  | markBlockAsInFlight (nNow : Int) (nodeid : NodeId) (hash : UInt256)
      (pindex : Option BlockPtr) (pit : Bool)
  | markBlockAsReceived (nNow : Int) (hash : UInt256)
deriving DecidableEq

namespace NetState

def call (s : NetState) : DownloadCall → Result NetState
  | .initializeNode nodeid => .ok (s.initializeNode nodeid)
  | .finalizeNode nodeid => s.finalizeNode nodeid
  | .updatePreferredDownload nodeid preferred => s.updatePreferredDownload nodeid preferred
  | .protectFromDisconnect nodeid => s.protectFromDisconnect nodeid
  | .markBlockAsInFlight nNow nodeid hash pindex pit => do
      let (_, _, s) ← s.markBlockAsInFlight nNow nodeid hash pindex pit
      return s
  | .markBlockAsReceived nNow hash => do
      let (_, s) ← s.markBlockAsReceived nNow hash
      return s

/-- The peer that a call names, if it names one, is connected. -/
def Names (s : NetState) : DownloadCall → Prop
  | .initializeNode _ | .markBlockAsReceived _ _ => True
  | .finalizeNode nodeid | .updatePreferredDownload nodeid _ | .protectFromDisconnect nodeid
  | .markBlockAsInFlight _ nodeid _ _ _ => nodeid ∈ s.mapNodeState

/-- Whether a peer has a block in flight whose header was validated. -/
def downloadsValidated (s : NetState) (state : CNodeState) : Bool :=
  state.vBlocksInFlight.any fun it => (s.queued it).fValidatedHeaders

/-- What the bookkeeping is meant to say. -/
structure DownloadsExact (s : NetState) : Prop where
  /-- The map has an entry for exactly the blocks in the queues, and the entry names the peer and
  the node of its list. -/
  inFlight : ∀ hash nodeid it, s.mapBlocksInFlight.lookup hash = some (nodeid, it) ↔
    ∃ state, s.mapNodeState.lookup nodeid = some state ∧ it ∈ state.vBlocksInFlight ∧
      (s.queued it).hash = hash
  /-- No node is in two lists, nor is a hash queued at two nodes. -/
  once : ∀ nodeid nodeid' state state' it it', s.mapNodeState.lookup nodeid = some state →
    s.mapNodeState.lookup nodeid' = some state' → it ∈ state.vBlocksInFlight →
    it' ∈ state'.vBlocksInFlight → (s.queued it).hash = (s.queued it').hash →
      nodeid = nodeid' ∧ it = it'
  nodup : ∀ nodeid state, s.mapNodeState.lookup nodeid = some state →
    state.vBlocksInFlight.Nodup
  nBlocksInFlight : ∀ nodeid state, s.mapNodeState.lookup nodeid = some state →
    state.nBlocksInFlight = state.vBlocksInFlight.length
  nBlocksInFlightValidHeaders : ∀ nodeid state, s.mapNodeState.lookup nodeid = some state →
    state.nBlocksInFlightValidHeaders =
      state.vBlocksInFlight.countP fun it => (s.queued it).fValidatedHeaders
  nPeersWithValidatedDownloads : s.nPeersWithValidatedDownloads =
    s.mapNodeState.entries.countP fun peer => s.downloadsValidated peer.2
  /-- The assertions of `FinalizeNode` after the last peer. -/
  idle : s.mapNodeState.keys = [] → s.assertIdle = .ok ()

variable {s : NetState}

theorem validatedDownload_eq {state : CNodeState} (h : state.Consistent s.queued) :
    validatedDownload state = (s.downloadsValidated state).toInt := by
  have hiff : state.nBlocksInFlightValidHeaders ≠ 0 ↔ s.downloadsValidated state := by
    rw [h.validHeaders, downloadsValidated, List.any_eq_true, ← List.countP_pos_iff]
    omega
  simp only [validatedDownload, hiff, Bool.decide_eq_true]

theorem Consistent.nPeersWithValidatedDownloads_eq (hs : s.Consistent) :
    s.nPeersWithValidatedDownloads =
      s.mapNodeState.entries.countP fun peer => s.downloadsValidated peer.2 := by
  rw [hs.validated, tally_eq_countP]
  intro peer hpeer
  apply validatedDownload_eq
  exact hs.peer (List.mem_dlookup s.mapNodeState.nodupKeys hpeer)

theorem Consistent.downloadsExact (hs : s.Consistent) : s.DownloadsExact where
  inFlight hash nodeid it := by
    constructor
    · exact hs.listed
    · rintro ⟨state, hstate, hit, rfl⟩
      exact hs.mapped hstate hit
  once nodeid nodeid' state state' it it' hstate hstate' hit hit' hhash := by
    have h := hs.mapped hstate hit
    rw [hhash, hs.mapped hstate' hit', Option.some_inj, Prod.mk.injEq] at h
    exact ⟨h.1.symm, h.2.symm⟩
  nodup _ _ hstate := (hs.peer hstate).nodup
  nBlocksInFlight _ _ hstate := (hs.peer hstate).count
  nBlocksInFlightValidHeaders _ _ hstate := (hs.peer hstate).validHeaders
  nPeersWithValidatedDownloads := hs.nPeersWithValidatedDownloads_eq
  idle := hs.assertIdle

theorem Consistent.call (hs : s.Consistent) {c : DownloadCall} (hnames : s.Names c) :
    ∃ s', s.call c = .ok s' ∧ s'.Consistent := by
  cases c with
  | initializeNode nodeid => exact ⟨_, rfl, hs.initializeNode nodeid⟩
  | finalizeNode nodeid =>
    obtain ⟨state, hstate, hfinal⟩ := hs.finalizeNode hnames
    exact ⟨_, hfinal, hs.dropNode hstate⟩
  | updatePreferredDownload nodeid preferred =>
    obtain ⟨s', hupdate, hs', -⟩ := hs.updatePreferredDownload hnames preferred
    exact ⟨s', hupdate, hs'⟩
  | protectFromDisconnect nodeid =>
    obtain ⟨s', hupdate, hs', -⟩ := hs.protectFromDisconnect hnames
    exact ⟨s', hupdate, hs'⟩
  | markBlockAsInFlight nNow nodeid hash pindex pit =>
    obtain ⟨isNew, it, s', hmark, h⟩ := hs.markBlockAsInFlight hnames nNow hash pindex pit
    exact ⟨s', by rw [NetState.call, hmark]; rfl, h.consistent⟩
  | markBlockAsReceived nNow hash =>
    obtain ⟨b, s', hreceived, h⟩ := hs.markBlockAsReceived nNow hash
    exact ⟨s', by rw [NetState.call, hreceived]; rfl, h.consistent⟩

theorem call_of_not_names {c : DownloadCall} (hnames : ¬ s.Names c) :
    s.call c = .error (.assertion "state != nullptr") := by
  have hstate : ∀ {nodeid}, nodeid ∉ s.mapNodeState →
      s.stateOf nodeid = .error (.assertion "state != nullptr") := by
    intro nodeid hpeer
    rw [stateOf, AList.lookup_eq_none.mpr hpeer]
  cases c with
  | initializeNode => exact absurd trivial hnames
  | markBlockAsReceived => exact absurd trivial hnames
  | finalizeNode nodeid =>
    rw [NetState.call, NetState.finalizeNode, hstate hnames]
    rfl
  | updatePreferredDownload nodeid preferred =>
    rw [NetState.call, NetState.updatePreferredDownload, hstate hnames]
    rfl
  | protectFromDisconnect nodeid =>
    rw [NetState.call, NetState.protectFromDisconnect, hstate hnames]
    rfl
  | markBlockAsInFlight nNow nodeid hash pindex pit =>
    rw [NetState.call, NetState.markBlockAsInFlight, hstate hnames]
    rfl

theorem consistent_of_calls {calls : List DownloadCall}
    (h : calls.foldlM NetState.call empty = .ok s) : s.Consistent := by
  refine foldlM_invariant (I := Consistent) ?_ consistent_empty h
  intro c _ s₁ s₂ hs₁ hcall
  by_cases hnames : s₁.Names c
  · obtain ⟨s', hcall', hs'⟩ := hs₁.call hnames
    rw [hcall, Except.ok.injEq] at hcall'
    exact hcall' ▸ hs'
  · rw [call_of_not_names hnames] at hcall
    cases hcall

/-- In every state that a run of calls reaches, the bookkeeping is exact, and the next call
fails no assertion unless it names a peer that is not connected. -/
theorem calls_downloadsExact (calls : List DownloadCall) (s : NetState)
    (h : calls.foldlM NetState.call empty = .ok s) :
    s.DownloadsExact ∧
      ∀ c, s.Names c → ∃ s', s.call c = .ok s' ∧ s'.DownloadsExact := by
  have hs := consistent_of_calls h
  refine ⟨hs.downloadsExact, ?_⟩
  intro c hnames
  obtain ⟨s', hcall, hs'⟩ := hs.call hnames
  exact ⟨s', hcall, hs'.downloadsExact⟩

/-- A block moves from one peer to another, and both peers leave. -/
theorem movedBlock_downloadsExact :
    ∃ s, [DownloadCall.initializeNode 1, .initializeNode 2,
        .markBlockAsInFlight 10 1 77 (some 4) false, .markBlockAsInFlight 11 2 77 none true,
        .markBlockAsInFlight 12 2 78 (some 5) false, .markBlockAsReceived 13 78,
        .finalizeNode 1, .finalizeNode 2].foldlM NetState.call empty = .ok s ∧
      s.mapNodeState.keys = [] ∧ s.DownloadsExact := by
  have hrun : (([DownloadCall.initializeNode 1, .initializeNode 2,
        .markBlockAsInFlight 10 1 77 (some 4) false, .markBlockAsInFlight 11 2 77 none true,
        .markBlockAsInFlight 12 2 78 (some 5) false, .markBlockAsReceived 13 78,
        .finalizeNode 1, .finalizeNode 2].foldlM NetState.call empty).toOption.map
          fun s => s.mapNodeState.keys) = some [] := by
    decide +kernel
  obtain ⟨s, hs, hkeys⟩ := Option.map_eq_some_iff.mp hrun
  have hs := toOption_eq_some.mp hs
  exact ⟨s, hs, hkeys, (calls_downloadsExact _ s hs).1⟩

end NetState

end Verium
