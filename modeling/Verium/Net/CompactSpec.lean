import Mathlib.Algebra.Order.SuccPred
import Mathlib.Data.Nat.SuccPred
import Verium.Net.InFlightSpec

/-!
The assertions of the compact block code. A partial block in flight has a header as long as no
message completes one to a block that `CheckBlock` calls mutated; after such a message the
emptied object stays in flight, and the next `blocktxn` of the peer fails an assertion.
-/

namespace Verium

open Lib

theorem endsCleanly_forM {α : Type} {g : α → Result PUnit} {l : List α}
    (h : ∀ a ∈ l, EndsCleanly (g a)) : EndsCleanly (l.forM g) := by
  induction l with
  | nil => exact endsCleanly_ok _
  | cons a l ih =>
    obtain ⟨ha, hl⟩ := List.forall_mem_cons.mp h
    exact endsCleanly_bind.mpr ⟨ha, fun _ _ => ih hl⟩

theorem endsCleanly_checkTransaction (tx : CTransaction) (fCheckDuplicateInputs : Bool) :
    EndsCleanly (checkTransaction tx fCheckDuplicateInputs) := by
  have houts : EndsCleanly (tx.vout.foldlM checkTxOut 0) := by
    apply endsCleanly_foldlM.mpr
    intro pre txout post nValueOut _ _
    simp [checkTxOut, endsCleanly_bind, pure, Except.pure]
  unfold checkTransaction
  split <;> simp [endsCleanly_bind, houts]

theorem endsCleanly_checkBlockTransactions (ctx : CheckContext) (block : CBlock) :
    EndsCleanly (checkBlockTransactions ctx block) := by
  have hall : EndsCleanly (forM block.vtx fun tx => do
      rejectIf (enforceTime ctx ∧ block.nTime < tx.nTime) (consensusInvalid "bad-tx-timestamp")
      checkTransaction tx true) := by
    refine endsCleanly_forM fun tx _ => ?_
    simp [endsCleanly_bind, endsCleanly_checkTransaction]
  unfold checkBlockTransactions
  refine endsCleanly_bind.mpr ⟨endsCleanly_rejectIf_consensus, fun _ _ => ?_⟩
  split
  · simp [endsCleanly_bind, hall]
  · exact endsCleanly_error.mpr trivial

theorem endsCleanly_checkBlock (crypto : Crypto) (ctx : CheckContext) (block : CBlock)
    (fCheckPOW fCheckMerkleRoot : Bool) :
    EndsCleanly (checkBlock crypto ctx block fCheckPOW fCheckMerkleRoot) := by
  have hwork : EndsCleanly (checkWhen fCheckPOW (checkBlockWork crypto ctx block)) := by
    unfold checkWhen
    split
    · exact endsCleanly_rejectIf trivial
    · exact endsCleanly_ok _
  have hroot : EndsCleanly (checkWhen fCheckMerkleRoot (checkBlockMerkleRoot crypto block)) := by
    unfold checkWhen
    split
    · exact endsCleanly_bind.mpr
        ⟨endsCleanly_rejectIf trivial, fun _ _ => endsCleanly_rejectIf trivial⟩
    · exact endsCleanly_ok _
  unfold checkBlock
  split
  · exact endsCleanly_ok _
  · refine endsCleanly_bind.mpr ⟨hwork, fun _ _ => ?_⟩
    refine endsCleanly_bind.mpr ⟨hroot, fun _ _ => ?_⟩
    refine endsCleanly_bind.mpr ⟨endsCleanly_checkBlockTransactions ctx block, fun _ _ => ?_⟩
    exact endsCleanly_ok _

namespace PartiallyDownloadedBlock

variable (code : CompactCode)

section InitData

theorem placePrefilled_length (shortCount : Nat) (prefilledtxn : List PrefilledTransaction)
    (i : Nat) (lastprefilledindex : Int) (slots : TxSlots) :
    (placePrefilled shortCount prefilledtxn i lastprefilledindex slots).2.length =
      slots.length := by
  induction prefilledtxn generalizing i lastprefilledindex slots with
  | nil => rfl
  | cons prefilled rest ih =>
    unfold placePrefilled
    dsimp only
    split_ifs
    · rfl
    · rfl
    · rfl
    · rw [ih, List.length_set]

variable {shorttxids : AList fun _ : UInt64 => Nat}
  {conflicts : CTransaction → Option CTransaction → Result Bool} {found found' : PoolMatch}
  {cmpctblock : CBlockHeaderAndShortTxIDs} {vTxHashes : List (UInt256 × CTransaction)}
  {extraTxn : List (UInt256 × Option CTransaction)}

/-- A round over a pool keeps the number of slots, and fails only if the comparison does. -/
theorem PoolMatch.matchTx_ends (shortid : UInt64) (tx : Option CTransaction) (found : PoolMatch) :
    Ends (fun e => ∃ held, conflicts held tx = .error e)
      (found.matchTx shorttxids conflicts shortid tx) fun found' =>
        found'.slots.length = found.slots.length := by
  unfold PoolMatch.matchTx
  split
  · exact rfl
  · split
    · exact List.length_set
    · split
      · exact rfl
      · next held _ =>
        cases hconflict : conflicts held tx with
        | error e => exact ⟨held, hconflict⟩
        | ok b =>
          cases b with
          | true => exact List.length_set
          | false => exact rfl

theorem PoolMatch.matchPool_ends (getShortID : UInt256 → UInt64)
    (pool : List (UInt256 × Option CTransaction)) (found : PoolMatch) :
    Ends (fun e => ∃ entry ∈ pool, ∃ held, conflicts held entry.2 = .error e)
      (found.matchPool shorttxids conflicts getShortID pool) fun found' =>
        found'.slots.length = found.slots.length := by
  induction pool generalizing found with
  | nil => exact rfl
  | cons entry rest ih =>
    unfold PoolMatch.matchPool
    refine ((found.matchTx_ends _ entry.2).imp (fun e he => ⟨entry, List.mem_cons_self, he⟩)
      fun _ h => h).bind ?_
    intro found' hlength
    split
    · exact hlength
    · refine (ih found').imp ?_ fun _ h => h.trans hlength
      rintro e ⟨later, hmem, hlater⟩
      exact ⟨later, List.mem_cons_of_mem _ hmem, hlater⟩

/-- What `InitData` leaves when it returns: unless the message is invalid, a header and a slot for
each transaction. -/
structure Initialized (cmpctblock : CBlockHeaderAndShortTxIDs) (status : ReadStatus)
    (partialBlock : PartiallyDownloadedBlock) : Prop where
  returned : status ≠ .checkBlockFailed
  header : status ≠ .invalid → partialBlock.header = cmpctblock.header
  length : status ≠ .invalid → partialBlock.txnAvailable.length = cmpctblock.blockTxCount

/-- A null entry of the ring buffer is read. -/
def ReadsNull {β : Type} (extraTxn : List (UInt256 × Option CTransaction)) (r : Result β) : Prop :=
  (∃ entry ∈ extraTxn, entry.2 = none) ∧ r = .error (.exception "null pointer")

/-- What such a read ends with. -/
def NullRead (extraTxn : List (UInt256 × Option CTransaction)) (failure : Failure) : Prop :=
  (∃ entry ∈ extraTxn, entry.2 = none) ∧ failure = .exception "null pointer"

theorem initSlots_ends (partialBlock : PartiallyDownloadedBlock)
    (cmpctblock : CBlockHeaderAndShortTxIDs) (vTxHashes : List (UInt256 × CTransaction))
    (extraTxn : List (UInt256 × Option CTransaction)) :
    Ends (NullRead extraTxn) (initSlots code partialBlock cmpctblock vTxHashes extraTxn)
      fun r => Initialized cmpctblock r.1 r.2 := by
  have hlength := placePrefilled_length cmpctblock.shorttxids.length cmpctblock.prefilledtxn 0
    (-1) (List.replicate cmpctblock.blockTxCount none)
  rw [List.length_replicate] at hlength
  unfold initSlots
  dsimp only
  split
  · exact ⟨by simp, fun h => absurd rfl h, fun h => absurd rfl h⟩
  · split
    · exact ⟨by simp, fun _ => rfl, fun _ => hlength⟩
    · next shorttxids _ =>
      split
      · exact ⟨by simp, fun _ => rfl, fun _ => hlength⟩
      · refine ((PoolMatch.matchPool_ends _ _ _).imp ?_ fun _ h => h).bind fun first hfirst => ?_
        · rintro e ⟨_, _, _, hconflict⟩
          cases hconflict
        refine ((PoolMatch.matchPool_ends _ _ _).imp ?_ fun _ h => h).bind fun second hsecond => ?_
        · rintro e ⟨entry, hmem, held, hconflict⟩
          cases hnull : entry.2 with
          | some tx =>
            rw [hnull] at hconflict
            cases hconflict
          | none =>
            rw [hnull] at hconflict
            cases hconflict
            exact ⟨⟨entry, hmem, hnull⟩, rfl⟩
        · exact ⟨by simp, fun _ => rfl, fun _ => hsecond.trans (hfirst.trans hlength)⟩

/-- On a fresh object `InitData` fails no assertion. -/
theorem initData_new (cmpctblock : CBlockHeaderAndShortTxIDs)
    (vTxHashes : List (UInt256 × CTransaction)) (extraTxn : List (UInt256 × Option CTransaction)) :
    Ends (NullRead extraTxn) (new.initData code cmpctblock vTxHashes extraTxn) fun r =>
      r.1 ≠ .checkBlockFailed ∧ (r.1 ≠ .invalid → ¬ r.2.header.isNull ∧
        r.2.txnAvailable.length = cmpctblock.blockTxCount) := by
  unfold initData
  split
  · exact ⟨by simp, fun h => absurd rfl h⟩
  · next hnull =>
    split
    · exact ⟨by simp, fun h => absurd rfl h⟩
    · have hfresh : new.header.isNull ∧ new.txnAvailable = [] := ⟨rfl, rfl⟩
      rw [assertThat_of hfresh, ok_bind]
      refine (initSlots_ends code new cmpctblock vTxHashes extraTxn).mono fun r hinit => ?_
      refine ⟨hinit.returned, fun hvalid => ⟨?_, hinit.length hvalid⟩⟩
      rw [hinit.header hvalid]
      exact fun h => hnull (.inl h)

end InitData

section FillBlock

variable (ctx : CheckContext)

/-- The transactions complete the partial block, and `CheckBlock` calls the result mutated. -/
def mutates (partialBlock : PartiallyDownloadedBlock) (txn : List CTransaction) : Bool :=
  match fillSlots partialBlock.txnAvailable txn with
  | some (vtx, []) =>
      match checkBlock code.crypto ctx (assembled partialBlock.header vtx) true true with
      | .ok _ => false
      | .error failure => failure.getReason = .blockMutated
  | _ => false

theorem checkedStatus_of_endsCleanly (block : CBlock) {r : Result CBlock} (h : EndsCleanly r) :
    ∃ status block', checkedStatus block r = .ok (status, block') ∧
      (status = .failed → ∃ failure, r = .error failure ∧ failure.getReason = .blockMutated) := by
  cases r with
  | ok checked => exact ⟨_, _, rfl, fun hstatus => by cases hstatus⟩
  | error failure =>
    have hinvalid := h failure rfl
    cases failure with
    | invalid reason chRejectCode strRejectReason =>
      refine ⟨_, _, rfl, ?_⟩
      intro hstatus
      refine ⟨_, rfl, ?_⟩
      by_contra hreason
      rw [if_neg hreason] at hstatus
      cases hstatus
    | error | assertion | exception => exact absurd hinvalid id

theorem fillBlock_of_header {partialBlock : PartiallyDownloadedBlock}
    (hheader : ¬ partialBlock.header.isNull) (txn : List CTransaction) :
    ∃ status block partialBlock',
      partialBlock.fillBlock code ctx txn = .ok (status, block, partialBlock') ∧
        (status = .failed → partialBlock.mutates code ctx txn) := by
  unfold fillBlock mutates
  rw [assertThat_of hheader, ok_bind]
  cases fillSlots partialBlock.txnAvailable txn with
  | none => exact ⟨_, _, _, rfl, fun h => by cases h⟩
  | some filled =>
    obtain ⟨vtx, rest⟩ := filled
    cases rest with
    | cons tx rest => exact ⟨_, _, _, rfl, fun h => by cases h⟩
    | nil =>
      obtain ⟨status, block, hstatus, hfailed⟩ := checkedStatus_of_endsCleanly
        (assembled partialBlock.header vtx)
        (endsCleanly_checkBlock code.crypto ctx (assembled partialBlock.header vtx) true true)
      dsimp only
      rw [if_neg (not_not.mpr rfl), hstatus]
      refine ⟨status, block, _, rfl, ?_⟩
      intro h
      obtain ⟨failure, hcheck, hreason⟩ := hfailed h
      rw [hcheck]
      exact decide_eq_true hreason

end FillBlock

end PartiallyDownloadedBlock

/-- The ring buffer that is searched when the event is handled. -/
def NetEvent.extraTxn : NetEvent → List (UInt256 × Option CTransaction)
  | .cmpctBlock ctx _ _ => ctx.vExtraTxnForCompact
  | _ => []

namespace NetState

open PartiallyDownloadedBlock

variable {code : CompactCode} {ctx : MessageContext} {s s' : NetState} {hash : UInt256}
  {nodeid pfrom : NodeId} {it : QueuedPtr} {partialBlock : PartiallyDownloadedBlock}
  {E : Failure → Prop}

/-- Every partial block in flight, other than that of the given block, has a header. -/
def HeadersBut (hash : UInt256) (s : NetState) : Prop :=
  ∀ hash' nodeid it partialBlock, hash' ≠ hash →
    s.mapBlocksInFlight.lookup hash' = some (nodeid, it) →
      (s.queued it).partialBlock = some partialBlock → ¬ partialBlock.header.isNull

/-- The bookkeeping is consistent and every partial block in flight has a header. -/
structure Sound (s : NetState) : Prop where
  consistent : s.Consistent
  headers : ∀ {hash nodeid it partialBlock},
    s.mapBlocksInFlight.lookup hash = some (nodeid, it) →
      (s.queued it).partialBlock = some partialBlock → ¬ partialBlock.header.isNull

theorem sound_empty : Sound empty where
  consistent := consistent_empty
  headers h := by cases h

theorem Sound.headersBut (hs : s.Sound) (hash : UInt256) : s.HeadersBut hash :=
  fun _ _ _ _ _ hlookup hpart => hs.headers hlookup hpart

/-- A state is sound once the block whose partial block may lack a header has left the queue. -/
theorem HeadersBut.received (hs : s.Consistent) (hbut : s.HeadersBut hash) (nNow : Int) :
    Ends E (s.markBlockAsReceived nNow hash) fun r => r.2.Sound := by
  obtain ⟨b, s', hreceived, h⟩ := hs.markBlockAsReceived nNow hash
  rw [hreceived]
  refine ⟨h.consistent, ?_⟩
  intro hash' nodeid it partialBlock hlookup hpart
  obtain ⟨hne, hlookup⟩ := h.lookup hlookup
  rw [h.queued] at hpart
  exact hbut hash' nodeid it partialBlock hne hlookup hpart

theorem HeadersBut.setPartialBlock (hs : s.Consistent) (hbut : s.HeadersBut hash)
    (hlookup : s.mapBlocksInFlight.lookup hash = some (nodeid, it))
    (partialBlock : PartiallyDownloadedBlock) :
    (s.setPartialBlock it partialBlock).HeadersBut hash := by
  intro hash' nodeid' it' partialBlock' hne hlookup' hpart
  have hit : it' ≠ it := by
    rintro rfl
    exact hne ((hs.hash_eq hlookup').symm.trans (hs.hash_eq hlookup))
  have hpart : (s.queued it').partialBlock = some partialBlock' :=
    (congrArg QueuedBlock.partialBlock (Function.update_of_ne hit _ _)).symm.trans hpart
  exact hbut hash' nodeid' it' partialBlock' hne hlookup' hpart

/-- Storing a partial block with a header for the one that may lack it makes the state sound. -/
theorem HeadersBut.fill (hs : s.Consistent) (hbut : s.HeadersBut hash)
    (hlookup : s.mapBlocksInFlight.lookup hash = some (nodeid, it))
    (hheader : ¬ partialBlock.header.isNull) : (s.setPartialBlock it partialBlock).Sound where
  consistent := hs.setPartialBlock
  headers := by
    intro hash' nodeid' it' partialBlock' hlookup' hpart
    rcases eq_or_ne hash' hash with rfl | hne
    · have hentry := Option.some_inj.mp (hlookup'.symm.trans hlookup)
      cases hentry
      have hself : ((s.setPartialBlock it partialBlock).queued it).partialBlock =
          some partialBlock := by
        simp [NetState.setPartialBlock]
      rw [hself] at hpart
      cases hpart
      exact hheader
    · exact hbut.setPartialBlock hs hlookup partialBlock hash' nodeid' it'
        partialBlock' hne hlookup'
        hpart

/-- The transactions do not complete the peer's partial block to a mutated one. -/
def BlockTxnIntact (code : CompactCode) (ctx : MessageContext) (pfrom : NodeId)
    (resp : BlockTransactions) (s : NetState) : Prop :=
  ∀ it partialBlock, s.mapBlocksInFlight.lookup resp.blockhash = some (pfrom, it) →
    (s.queued it).partialBlock = some partialBlock →
      ¬ partialBlock.mutates code ctx.check resp.txn

theorem Sound.processBlockTxn (hs : s.Sound) (resp : BlockTransactions)
    (hintact : s.BlockTxnIntact code ctx pfrom resp) :
    Ends E (s.processBlockTxn code ctx pfrom resp) Sound := by
  unfold NetState.processBlockTxn
  split
  · exact hs
  · split
    · exact hs
    · next it hfrom =>
      have hlookup := inFlightFrom_eq_some.mp hfrom
      split
      · exact hs
      · next partialBlock hpart =>
        obtain ⟨status, block, partialBlock', hfill, hfailed⟩ :=
          fillBlock_of_header code ctx.check (hs.headers hlookup hpart) resp.txn
        have hstatus : status ≠ .failed := by
          intro h
          exact hintact it partialBlock hlookup hpart (hfailed h)
        have hreceived := HeadersBut.received (E := E) hs.consistent.setPartialBlock
          ((hs.headersBut resp.blockhash).setPartialBlock hs.consistent hlookup partialBlock')
          ctx.nNow
        rw [hfill, ok_bind]
        dsimp only
        rw [if_neg hstatus]
        exact hreceived.bind fun _ h => h

theorem missingIndexes_ok (hheader : ¬ partialBlock.header.isNull) {n : Nat}
    (hlength : partialBlock.txnAvailable.length = n) :
    ∃ indexes, missingIndexes partialBlock n = .ok indexes := by
  apply failure?_eq_none.mp
  apply Option.eq_none_iff_forall_ne_some.mpr
  intro failure hfail
  obtain ⟨pre, i, post, indexes, hsplit, -, hround⟩ :=
    foldlM_eq_error_iff.mp (failure?_eq_some.mp hfail)
  have hi : i < partialBlock.txnAvailable.length := by
    rw [hlength, ← List.mem_range, hsplit]
    simp
  unfold isTxAvailable at hround
  rw [assertThat_of hheader, ok_bind, assertThat_of hi] at hround
  cases hround

/-- Where the compact block needs nothing more, the block it gives is not mutated. -/
def CmpctBlockIntact (code : CompactCode) (ctx : MessageContext)
    (cmpctblock : CBlockHeaderAndShortTxIDs) : Prop :=
  ∀ partialBlock,
    PartiallyDownloadedBlock.new.initData code cmpctblock ctx.vTxHashes ctx.vExtraTxnForCompact =
      .ok (.ok, partialBlock) → ¬ partialBlock.mutates code ctx.check []

theorem Sound.downloadCmpctBlock (hs : s.Sound) (hpeer : pfrom ∈ s.mapNodeState)
    (pindex : BlockPtr) {cmpctblock : CBlockHeaderAndShortTxIDs}
    (hintact : CmpctBlockIntact code ctx cmpctblock) :
    Ends (NullRead ctx.vExtraTxnForCompact)
      (s.downloadCmpctBlock code ctx pfrom pindex cmpctblock) Sound := by
  obtain ⟨isNew, it, s₁, hmark, h₁⟩ := hs.consistent.markBlockAsInFlight hpeer ctx.nNow
    (cmpctblock.header.getHash code.crypto) (some pindex) true
  have hbut : s₁.HeadersBut (cmpctblock.header.getHash code.crypto) := by
    intro hash' nodeid' it' partialBlock hne hlookup hpart
    obtain ⟨hlookup, hqueued⟩ := h₁.others hne hlookup
    rw [hqueued] at hpart
    exact hs.headers hlookup hpart
  unfold NetState.downloadCmpctBlock
  dsimp only
  rw [hmark, ok_bind]
  dsimp only
  split
  · next hheld =>
    rw [h₁.same hheld.1]
    exact hs
  · next hheld =>
    -- Whether the list node is new or had no partial block, the object is a fresh one.
    have hnew : (s₁.queued it).partialBlock.getD .new = .new := by
      cases isNew with
      | true => rw [h₁.partialBlock rfl]; rfl
      | false =>
        cases hpart : (s₁.queued it).partialBlock with
        | none => rfl
        | some partialBlock => exact absurd ⟨Bool.false_ne_true, by rw [hpart]; rfl⟩ hheld
    rw [hnew]
    obtain ⟨⟨status, partialBlock⟩, hinit, hstatus, hheader⟩ | ⟨failure, hnull, hinit⟩ :=
      (initData_new code cmpctblock ctx.vTxHashes ctx.vExtraTxnForCompact).cases
    case inr =>
      rw [hinit]
      exact hnull
    rw [hinit, ok_bind]
    dsimp only at hheader ⊢
    cases status with
    | invalid =>
      exact (HeadersBut.received h₁.consistent.setPartialBlock
        (hbut.setPartialBlock h₁.consistent h₁.inFlight partialBlock) ctx.nNow).bind fun _ h => h
    | failed => exact hbut.fill h₁.consistent h₁.inFlight (hheader (by simp)).1
    | checkBlockFailed => exact absurd rfl hstatus
    | ok =>
      obtain ⟨hheader, hlength⟩ := hheader (by simp)
      have hs₂ := hbut.fill h₁.consistent h₁.inFlight hheader
      obtain ⟨indexes, hindexes⟩ := missingIndexes_ok hheader hlength
      dsimp only
      rw [hindexes, ok_bind]
      split
      · apply hs₂.processBlockTxn
        intro it' partialBlock' hlookup hpart
        have hentry := Option.some_inj.mp (hlookup.symm.trans h₁.inFlight)
        cases hentry
        have hself : ((s₁.setPartialBlock it partialBlock).queued it).partialBlock =
            some partialBlock := by
          simp [NetState.setPartialBlock]
        rw [hself] at hpart
        cases hpart
        exact hintact partialBlock hinit
      · exact hs₂

theorem Sound.markBlockAsReceived (hs : s.Sound) (nNow : Int) (hash : UInt256) :
    Ends E (s.markBlockAsReceived nNow hash) fun r => r.2.Sound :=
  (hs.headersBut hash).received hs.consistent nNow

theorem Sound.reconstructCmpctBlock (hs : s.Sound) (cmpctblock : CBlockHeaderAndShortTxIDs) :
    Ends (NullRead ctx.vExtraTxnForCompact) (s.reconstructCmpctBlock code ctx cmpctblock)
      Sound := by
  unfold NetState.reconstructCmpctBlock
  refine (initData_new code cmpctblock ctx.vTxHashes ctx.vExtraTxnForCompact).bind ?_
  rintro ⟨status, tempBlock⟩ ⟨-, hheader⟩
  dsimp only at hheader ⊢
  split
  · exact hs
  · next hok =>
    have hvalid : status ≠ .invalid := by
      rw [not_not.mp hok]
      simp
    obtain ⟨status', block, tempBlock', hfill, -⟩ :=
      fillBlock_of_header code ctx.check (hheader hvalid).1 []
    rw [hfill, ok_bind]
    dsimp only
    split
    · exact (hs.markBlockAsReceived ctx.nNow (block.getHash code.crypto)).bind fun _ h => h
    · exact hs

/-- What a message must not do: give, with what the node has, a mutated block that the peer is
being asked for. -/
def Intact (code : CompactCode) (s : NetState) : NetEvent → Prop
  | .cmpctBlock ctx pfrom cmpctblock =>
      (∀ nodeid it, s.mapBlocksInFlight.lookup (cmpctblock.header.getHash code.crypto) =
        some (nodeid, it) → nodeid = pfrom) →
      CmpctBlockIntact code ctx cmpctblock
  | .blockTxn ctx pfrom resp => s.BlockTxnIntact code ctx pfrom resp
  | _ => True

theorem Sound.processCmpctBlock (hs : s.Sound) (hpeer : pfrom ∈ s.mapNodeState)
    {cmpctblock : CBlockHeaderAndShortTxIDs}
    (hintact : s.Intact code (.cmpctBlock ctx pfrom cmpctblock)) :
    Ends (NullRead ctx.vExtraTxnForCompact) (s.processCmpctBlock code ctx pfrom cmpctblock)
      Sound := by
  obtain ⟨nodestate, hstate⟩ := Option.isSome_iff_exists.mp (AList.lookup_isSome.mpr hpeer)
  unfold NetState.processCmpctBlock
  split
  · exact hs
  · split
    · exact hs
    · next pindex entry _ =>
      rw [stateOf_eq_ok.mpr hstate, ok_bind]
      dsimp only
      split
      · exact hs
      split
      · exact hs
      split
      · exact hs
      split
      · exact hs
      split
      · next hbranch =>
        apply hs.downloadCmpctBlock hpeer pindex
        apply hintact
        intro nodeid it hlookup
        rw [hlookup] at hbranch
        rcases hbranch with ⟨hnone, -⟩ | hfrom
        · cases hnone
        · exact Option.some_inj.mp hfrom
      · exact hs.reconstructCmpctBlock cmpctblock

/-- The peer that an event is about is connected. -/
def Connected (s : NetState) : NetEvent → Prop
  | .connect _ => True
  | .disconnect nodeid => nodeid ∈ s.mapNodeState
  | .prefer nodeid _ => nodeid ∈ s.mapNodeState
  | .protect nodeid => nodeid ∈ s.mapNodeState
  | .request _ nodeid _ _ => nodeid ∈ s.mapNodeState
  | .received _ _ => True
  | .cmpctBlock _ pfrom _ => pfrom ∈ s.mapNodeState
  | .blockTxn _ pfrom _ => pfrom ∈ s.mapNodeState

instance (s : NetState) : DecidablePred s.Connected
  | .connect _ | .received _ _ => isTrue trivial
  | .disconnect nodeid | .prefer nodeid _ | .protect nodeid | .request _ nodeid _ _
  | .cmpctBlock _ nodeid _ | .blockTxn _ nodeid _ =>
      inferInstanceAs (Decidable (nodeid ∈ s.mapNodeState))

/-- No event fails an assertion in a sound state, and the state after it is sound. -/
theorem Sound.handle (hs : s.Sound) {event : NetEvent} (hpeer : s.Connected event)
    (hintact : s.Intact code event) :
    Ends (NullRead event.extraTxn) (s.handle code event) Sound := by
  cases event with
  | connect nodeid =>
    refine ⟨hs.consistent.initializeNode nodeid, ?_⟩
    unfold NetState.initializeNode
    split
    · exact hs.headers
    · exact hs.headers
  | disconnect nodeid =>
    obtain ⟨state, hstate, hfinal⟩ := hs.consistent.finalizeNode hpeer
    rw [NetState.handle, hfinal]
    refine ⟨hs.consistent.dropNode hstate, ?_⟩
    intro hash nodeid' it partialBlock hlookup
    exact hs.headers (lookup_foldl_erase.mp hlookup).2
  | prefer nodeid preferred =>
    obtain ⟨s', hupdate, hs', hmap, hqueued⟩ :=
      hs.consistent.updatePreferredDownload hpeer preferred
    rw [NetState.handle, hupdate]
    refine ⟨hs', ?_⟩
    rw [hmap, hqueued]
    exact hs.headers
  | protect nodeid =>
    obtain ⟨s', hupdate, hs', hmap, hqueued⟩ := hs.consistent.protectFromDisconnect hpeer
    rw [NetState.handle, hupdate]
    refine ⟨hs', ?_⟩
    rw [hmap, hqueued]
    exact hs.headers
  | request nNow nodeid hash pindex =>
    obtain ⟨isNew, it, s', hmark, h⟩ :=
      hs.consistent.markBlockAsInFlight hpeer nNow hash pindex false
    rw [NetState.handle, hmark]
    refine ⟨h.consistent, ?_⟩
    intro hash' nodeid' it' partialBlock hlookup hpart
    rcases eq_or_ne hash' hash with rfl | hne
    · cases isNew with
      | true =>
        have hentry := Option.some_inj.mp (hlookup.symm.trans h.inFlight)
        cases hentry
        rw [h.partialBlock rfl] at hpart
        cases hpart
      | false =>
        rw [h.same Bool.false_ne_true] at hlookup hpart
        exact hs.headers hlookup hpart
    · obtain ⟨hlookup, hqueued⟩ := h.others hne hlookup
      rw [hqueued] at hpart
      exact hs.headers hlookup hpart
  | received nNow hash =>
    exact (hs.markBlockAsReceived nNow hash).bind fun _ h => h
  | cmpctBlock ctx pfrom cmpctblock => exact hs.processCmpctBlock hpeer hintact
  | blockTxn ctx pfrom resp => exact hs.processBlockTxn resp hintact

/-- The state after an event, or the last one before the process stops. -/
def next (code : CompactCode) (s : NetState) (event : NetEvent) : NetState :=
  match s.handle code event with
  | .ok s' => s'
  | .error _ => s

/-- In every run in which no message completes a partial block in flight to a mutated one, no
assertion fails, and the partial blocks that can be reached through the map of blocks in flight
all have a header. Only the read of a null entry of the ring buffer can end the run early. -/
theorem compactBlocks_never_assert (code : CompactCode) (events : List NetEvent)
    (h : Along (next code) (fun s event => s.Connected event ∧ s.Intact code event) empty
      events) :
    (∃ s, events.foldlM (NetState.handle code) empty = .ok s ∧
      ∀ hash nodeid it partialBlock, s.mapBlocksInFlight.lookup hash = some (nodeid, it) →
        (s.queued it).partialBlock = some partialBlock → ¬ partialBlock.header.isNull) ∨
    ∃ event ∈ events, ReadsNull event.extraTxn
      (events.foldlM (NetState.handle code) empty) := by
  have hrun : ∀ s : NetState, s.Sound →
      Along (next code) (fun s event => s.Connected event ∧ s.Intact code event) s events →
      Ends (fun failure => ∃ event ∈ events, NullRead (NetEvent.extraTxn event) failure)
        (events.foldlM (NetState.handle code) s) Sound := by
    clear h
    induction events with
    | nil => exact fun s hs _ => hs
    | cons event events ih =>
      rintro s hs ⟨⟨hpeer, hintact⟩, hrest⟩
      rw [List.foldlM_cons]
      obtain ⟨s₁, hhandle, hs₁⟩ | ⟨failure, hnull, hhandle⟩ := (hs.handle hpeer hintact).cases
      · have hnext : next code s event = s₁ := by rw [next, hhandle]
        rw [hnext] at hrest
        rw [hhandle, ok_bind]
        refine (ih s₁ hs₁ hrest).imp ?_ fun _ h => h
        rintro failure ⟨later, hmem, hnull⟩
        exact ⟨later, List.mem_cons_of_mem _ hmem, hnull⟩
      · rw [hhandle]
        exact ⟨event, List.mem_cons_self, hnull⟩
  obtain ⟨s, hfold, hs⟩ | ⟨_, ⟨event, hmem, hnull, rfl⟩, hfold⟩ := (hrun empty sound_empty h).cases
  · exact .inl ⟨s, hfold, fun _ _ _ _ hlookup hpart => hs.headers hlookup hpart⟩
  · exact .inr ⟨event, hmem, hnull, hfold⟩

def sampleCompactCode : CompactCode := ⟨sampleCrypto, fun _ _ _ => 0, fun keys _ => keys.length⟩

/-- A block just above the tip is announced by its header alone. -/
def sampleContext : MessageContext where
  fImporting := false
  prevKnown := true
  pindex := some (1, { dataEntry 5 (some 0) 1 2 with nTx := 0, nStatus := BlockStatus.zero })
  tip := dataEntry 77 none 0 1
  canDirectFetch := true
  vTxHashes := []
  vExtraTxnForCompact := [(0, none)]
  check := ⟨true, some 0, 2147483647⟩
  validTransactions := false
  nNow := 0

/-- A compact block that brings its only transaction along. -/
def sampleCmpctBlock (hashMerkleRoot : UInt256) : CBlockHeaderAndShortTxIDs where
  header := { (sampleBlock [sampleCoinbase]).toCBlockHeader with hashMerkleRoot }
  nonce := 0
  shorttxids := []
  prefilledtxn := [⟨0, sampleCoinbase⟩]
  count_le := by decide

/-- The root is that of the transaction, so the block is rebuilt at once. -/
theorem sampleCmpctBlock_run :
    ∃ s, [NetEvent.connect 1,
        .cmpctBlock sampleContext 1 (sampleCmpctBlock (blockMerkleRoot sampleCrypto
          [sampleCoinbase]).1),
        .blockTxn sampleContext 1 ⟨3, []⟩].foldlM (NetState.handle sampleCompactCode) empty =
          .ok s ∧
      ∀ hash nodeid it partialBlock, s.mapBlocksInFlight.lookup hash = some (nodeid, it) →
        (s.queued it).partialBlock = some partialBlock → ¬ partialBlock.header.isNull := by
  have hreturns : failure? ([NetEvent.connect 1,
      .cmpctBlock sampleContext 1 (sampleCmpctBlock (blockMerkleRoot sampleCrypto
        [sampleCoinbase]).1),
      .blockTxn sampleContext 1 ⟨3, []⟩].foldlM (NetState.handle sampleCompactCode) empty) =
        none := by
    decide +kernel
  refine (compactBlocks_never_assert sampleCompactCode _ ?_).resolve_right ?_
  case refine_2 =>
    rintro ⟨_, -, -, hnull⟩
    rw [hnull] at hreturns
    cases hreturns
  refine ⟨⟨trivial, trivial⟩, ⟨by decide +kernel, ?_⟩, ⟨by decide +kernel, ?_⟩, trivial⟩
  · intro _ partialBlock hinit
    have hfine : ((PartiallyDownloadedBlock.new.initData sampleCompactCode
        (sampleCmpctBlock (blockMerkleRoot sampleCrypto [sampleCoinbase]).1) []
          [(0, none)]).toOption.any
          fun r => r.2.mutates sampleCompactCode sampleContext.check []) = false := by
      decide +kernel
    have hinit : PartiallyDownloadedBlock.new.initData sampleCompactCode
        (sampleCmpctBlock (blockMerkleRoot sampleCrypto [sampleCoinbase]).1) [] [(0, none)] =
          .ok (.ok, partialBlock) := hinit
    rw [hinit] at hfine
    exact Bool.eq_false_iff.mp hfine
  · intro it partialBlock hlookup
    have hnone : (next sampleCompactCode (next sampleCompactCode empty (.connect 1))
        (.cmpctBlock sampleContext 1 (sampleCmpctBlock (blockMerkleRoot sampleCrypto
          [sampleCoinbase]).1))).mapBlocksInFlight.lookup 3 = none := by
      decide +kernel
    rw [hnone] at hlookup
    cases hlookup

/-- A compact block under another root fails as mutated and stays in flight without its
header, so an empty `blocktxn` for it stops the node. -/
theorem second_blockTxn_asserts :
    failure? ([NetEvent.connect 1, .cmpctBlock sampleContext 1 (sampleCmpctBlock 0),
      .blockTxn sampleContext 1
        ⟨(sampleCmpctBlock 0).header.getHash sampleCrypto, []⟩].foldlM
          (NetState.handle sampleCompactCode) empty) =
      some (.assertion "!header.IsNull()") := by
  decide +kernel

end NetState

end Verium
