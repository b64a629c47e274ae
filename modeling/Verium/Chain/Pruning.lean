import Verium.Chain.Accept
import Verium.Chain.BlockFiles

/-!
Pruning of block files: `FindFilesToPrune` and `FindFilesToPruneManual`. Which files may go is
decided from the largest height recorded for each file. That height bounds the blocks stored in the
file after any history of storage and earlier prunings, so no entry near the tip loses its data,
and a file is handed over for deletion only when no entry has data in it.
-/

namespace Verium

open Lib

/-- `MIN_BLOCKS_TO_KEEP` as the `unsigned int` that heights are compared with. -/
def blocksToKeep : UInt32 := UInt32.ofNat minBlocksToKeep

def blockfileChunkSize : UInt32 := 0x1000000

def undofileChunkSize : UInt32 := 0x100000

namespace BlockFiles

/-- `CalculateCurrentUsage()`. The sizes of a file are added in 32 bits. -/
def calculateCurrentUsage (s : BlockFiles) : UInt64 :=
  s.vinfoBlockFile.foldl (fun retval file => retval + (file.nSize + file.nUndoSize).toUInt64) 0

/-- The loop of `FindFilesToPruneManual` over the file numbers, with the files that were queued. -/
def pruneManualLoop (nLastBlockWeCanPrune : UInt32) : List Nat → BlockFiles → List Nat × BlockFiles
  | [], s => ([], s)
  | fileNumber :: rest, s =>
      let info := infoAt s.vinfoBlockFile fileNumber
      if info.nSize = 0 ∨ nLastBlockWeCanPrune < info.nHeightLast then
        pruneManualLoop nLastBlockWeCanPrune rest s
      else
        let (setFilesToPrune, s) :=
          pruneManualLoop nLastBlockWeCanPrune rest (s.pruneOneBlockFile fileNumber)
        (fileNumber :: setFilesToPrune, s)

/-- `FindFilesToPruneManual(setFilesToPrune, nManualPruneHeight)`, given the height of the tip. -/
def findFilesToPruneManual (s : BlockFiles) (fPruneMode : Bool) (nManualPruneHeight : Int32)
    (tipHeight : Option UInt32) : Result (List Nat × BlockFiles) := do
  assertThat (fPruneMode ∧ 0 < nManualPruneHeight) "fPruneMode && nManualPruneHeight > 0"
  match tipHeight with
  | none => return ([], s)
  | some nHeight =>
      let nLastBlockWeCanPrune := min nManualPruneHeight.toUInt32 (nHeight - blocksToKeep)
      return pruneManualLoop nLastBlockWeCanPrune (List.range s.nLastBlockFile) s

/-- The loop of `FindFilesToPrune` over the file numbers. -/
def pruneLoop (nLastBlockWeCanPrune : UInt32) (nPruneTarget nBuffer : UInt64) :
    List Nat → (nCurrentUsage : UInt64) → BlockFiles → List Nat × BlockFiles
  | [], _, s => ([], s)
  | fileNumber :: rest, nCurrentUsage, s =>
      let info := infoAt s.vinfoBlockFile fileNumber
      let nBytesToPrune := (info.nSize + info.nUndoSize).toUInt64
      if info.nSize = 0 then
        pruneLoop nLastBlockWeCanPrune nPruneTarget nBuffer rest nCurrentUsage s
      else if nCurrentUsage + nBuffer < nPruneTarget then ([], s)
      else if nLastBlockWeCanPrune < info.nHeightLast then
        pruneLoop nLastBlockWeCanPrune nPruneTarget nBuffer rest nCurrentUsage s
      else
        let (setFilesToPrune, s) := pruneLoop nLastBlockWeCanPrune nPruneTarget nBuffer rest
          (nCurrentUsage - nBytesToPrune) (s.pruneOneBlockFile fileNumber)
        (fileNumber :: setFilesToPrune, s)

/-- `FindFilesToPrune(setFilesToPrune, nPruneAfterHeight)`, given the height of the tip and what
`IsInitialBlockDownload` says. -/
def findFilesToPrune (s : BlockFiles) (nPruneAfterHeight nPruneTarget : UInt64)
    (fInitialBlockDownload : Bool) (tipHeight : Option UInt32) : List Nat × BlockFiles :=
  match tipHeight with
  | none => ([], s)
  | some nHeight =>
      if nPruneTarget = 0 then ([], s)
      else if nHeight.toUInt64 ≤ nPruneAfterHeight then ([], s)
      else
        let nLastBlockWeCanPrune := nHeight - blocksToKeep
        let nCurrentUsage := s.calculateCurrentUsage
        let nBuffer := (blockfileChunkSize + undofileChunkSize).toUInt64
        if nPruneTarget ≤ nCurrentUsage + nBuffer then
          let nBuffer := if fInitialBlockDownload then nBuffer + nPruneTarget / 10 else nBuffer
          pruneLoop nLastBlockWeCanPrune nPruneTarget nBuffer (List.range s.nLastBlockFile)
            nCurrentUsage s
        else ([], s)

end BlockFiles

/-- What happens to the block files of a node that prunes. -/
inductive StorageEvent where
  | store (pindex : BlockPtr) (nBlockSize : Nat) (nTime : UInt64) (dbp : Option FlatFilePos)
      (outOfSpace : Bool)
  | writeUndo (pindex : BlockPtr) (nUndoSize : Nat) (outOfSpace : Bool)
  | prune (nPruneAfterHeight nPruneTarget : UInt64) (fInitialBlockDownload : Bool)
      (tipHeight : Option UInt32)
  | pruneManual (fPruneMode : Bool) (nManualPruneHeight : Int32) (tipHeight : Option UInt32)

namespace BlockFiles

/-- The height of an entry never changes. -/
def handle (nHeight : BlockPtr → UInt32) (s : BlockFiles) : StorageEvent → BlockFiles
  | .store pindex nBlockSize nTime dbp outOfSpace =>
      s.storeBlock pindex nBlockSize (nHeight pindex) nTime dbp outOfSpace
  | .writeUndo pindex nUndoSize outOfSpace => s.writeUndoDataForBlock pindex nUndoSize outOfSpace
  | .prune nPruneAfterHeight nPruneTarget fInitialBlockDownload tipHeight =>
      (s.findFilesToPrune nPruneAfterHeight nPruneTarget fInitialBlockDownload tipHeight).2
  | .pruneManual fPruneMode nManualPruneHeight tipHeight =>
      match s.findFilesToPruneManual fPruneMode nManualPruneHeight tipHeight with
      | .ok (_, s) => s
      | .error _ => s

/-- The height recorded for a file bounds the blocks stored in it. -/
def Covers (nHeight : BlockPtr → UInt32) (s : BlockFiles) : Prop :=
  ∀ p, (s.entry p).haveData = true →
    nHeight p ≤ (infoAt s.vinfoBlockFile (s.entry p).nFile).nHeightLast

/-- An entry has block or undo data in the file. -/
def Refers (s : BlockFiles) (fileNumber : Nat) : Prop :=
  ∃ p, (s.entry p).nFile = fileNumber ∧
    ((s.entry p).haveData = true ∨ (s.entry p).haveUndo = true)

/-- What a pruning at the given tip may do: every entry near the tip that has its data and undo data
stays as it is, and nothing refers to a file that is to be deleted. -/
structure KeepsRecent (nHeight : BlockPtr → UInt32) (tipHeight : Option UInt32) (s : BlockFiles)
    (pruned : List Nat × BlockFiles) : Prop where
  recent : ∀ p, (∀ nTip ∈ tipHeight, nTip.toNat < (nHeight p).toNat + blocksToKeep.toNat) →
    (s.entry p).haveData = true → (s.entry p).haveUndo = true → pruned.2.entry p = s.entry p
  unreferenced : ∀ fileNumber ∈ pruned.1, ¬ pruned.2.Refers fileNumber

variable {nHeight : BlockPtr → UInt32} {s s' s'' : BlockFiles}

/-- The recorded heights of the files do not fall. -/
def Rises (s s' : BlockFiles) : Prop :=
  ∀ n, (infoAt s.vinfoBlockFile n).nHeightLast ≤ (infoAt s'.vinfoBlockFile n).nHeightLast

theorem Rises.refl (s : BlockFiles) : Rises s s :=
  fun _ => UInt32.le_refl _

theorem Covers.of_rises (h : Covers nHeight s) (hrises : Rises s s')
    (hentry : s'.entry = s.entry) : Covers nHeight s' := by
  intro p hdata
  rw [hentry] at hdata ⊢
  exact UInt32.le_trans (h p hdata) (hrises _)

theorem Covers.setEntry (h : Covers nHeight s) {pindex : BlockPtr} {disk : DiskEntry}
    (hdisk : disk.haveData = true →
      nHeight pindex ≤ (infoAt s.vinfoBlockFile disk.nFile).nHeightLast) :
    Covers nHeight { s with entry := Function.update s.entry pindex disk } := by
  intro p hdata
  dsimp only at hdata ⊢
  by_cases hp : p = pindex
  · subst hp
    rw [Function.update_self] at hdata ⊢
    exact hdisk hdata
  · rw [Function.update_of_ne hp] at hdata ⊢
    exact h p hdata

theorem le_addBlock (info : CBlockFileInfo) (nHeightIn : UInt32) (nTimeIn : UInt64) :
    info.nHeightLast ≤ (info.addBlock nHeightIn nTimeIn).nHeightLast ∧
      nHeightIn ≤ (info.addBlock nHeightIn nTimeIn).nHeightLast := by
  simp only [CBlockFileInfo.addBlock, UInt32.le_iff_toNat_le]
  split
  · next hlt =>
    rw [UInt32.lt_iff_toNat_lt] at hlt
    omega
  · next hge =>
    rw [UInt32.lt_iff_toNat_lt] at hge
    omega

theorem searchFile_same {nAddSize : UInt32} {fuel nFile nFile' : Nat}
    {vinfo vinfo' : List CBlockFileInfo}
    (h : searchFile nAddSize fuel vinfo nFile = some (vinfo', nFile')) :
    (∀ n, infoAt vinfo' n = infoAt vinfo n) ∧ nFile' < vinfo'.length := by
  induction fuel generalizing vinfo nFile with
  | zero => cases h
  | succ fuel ih =>
    rw [searchFile] at h
    split at h
    · obtain ⟨hsame, hlength⟩ := ih h
      refine ⟨fun n => ?_, hlength⟩
      rw [hsame, infoAt_growTo]
    · cases h
      exact ⟨infoAt_growTo _ _, lt_length_growTo _ _⟩

/-- Recording a block in a file: `vinfo` is the list of the files, perhaps made longer. -/
theorem rises_set {vinfo : List CBlockFileInfo} {nFile : Nat} {info : CBlockFileInfo}
    (hsame : ∀ n, infoAt vinfo n = infoAt s.vinfoBlockFile n) (hlength : nFile < vinfo.length)
    (hset : s'.vinfoBlockFile = vinfo.set nFile info)
    (hinfo : (infoAt vinfo nFile).nHeightLast ≤ info.nHeightLast) : Rises s s' := by
  intro n
  rw [hset, infoAt_set hlength]
  split
  · next heq =>
    rw [heq, ← hsame]
    exact hinfo
  · rw [hsame]
    exact UInt32.le_refl _

theorem findKnownBlockPos_records (s : BlockFiles) (pos : FlatFilePos) (nAddSize nHeightIn : UInt32)
    (nTime : UInt64) :
    Rises s (s.findKnownBlockPos pos nAddSize nHeightIn nTime) ∧
      nHeightIn ≤ (infoAt (s.findKnownBlockPos pos nAddSize nHeightIn nTime).vinfoBlockFile
        pos.nFile).nHeightLast := by
  have hlength := lt_length_growTo s.vinfoBlockFile pos.nFile
  have hadd := le_addBlock (infoAt (growTo s.vinfoBlockFile pos.nFile) pos.nFile) nHeightIn nTime
  constructor
  · exact rises_set (infoAt_growTo _ _) hlength rfl hadd.1
  · rw [findKnownBlockPos, infoAt_set hlength, if_pos rfl]
    exact hadd.2

/-- `FindBlockPos` records the height in the file it chooses, also when the disk is full. -/
theorem findBlockPos_records {nAddSize nHeightIn : UInt32} {nTime : UInt64} {outOfSpace : Bool}
    {result : Result FlatFilePos}
    (h : s.findBlockPos nAddSize nHeightIn nTime outOfSpace = (result, s')) :
    Rises s s' ∧ s'.entry = s.entry ∧ ∀ pos, result = .ok pos →
      nHeightIn ≤ (infoAt s'.vinfoBlockFile pos.nFile).nHeightLast := by
  rw [findBlockPos] at h
  split at h
  · cases h
    exact ⟨Rises.refl s, rfl, by simp⟩
  · next vinfo nFile hsearch =>
    obtain ⟨hsame, hlength⟩ := searchFile_same hsearch
    have hadd := le_addBlock (infoAt vinfo nFile) nHeightIn nTime
    split at h <;> cases h
    · exact ⟨rises_set hsame hlength rfl hadd.1, rfl, by simp⟩
    · refine ⟨rises_set hsame hlength rfl hadd.1, rfl, ?_⟩
      rintro pos ⟨⟩
      rw [infoAt_set hlength, if_pos rfl]
      exact hadd.2

theorem saveBlockToDisk_records {nBlockSize : Nat} {nHeightIn : UInt32} {nTime : UInt64}
    {dbp : Option FlatFilePos} {outOfSpace : Bool} {result : Result FlatFilePos}
    (h : s.saveBlockToDisk nBlockSize nHeightIn nTime dbp outOfSpace = (result, s')) :
    Rises s s' ∧ s'.entry = s.entry ∧ ∀ pos, result = .ok pos →
      nHeightIn ≤ (infoAt s'.vinfoBlockFile pos.nFile).nHeightLast := by
  unfold saveBlockToDisk at h
  cases dbp with
  | some pos =>
    cases h
    obtain ⟨hrises, hheight⟩ :=
      findKnownBlockPos_records s pos (UInt32.ofNat nBlockSize + 8) nHeightIn nTime
    refine ⟨hrises, rfl, ?_⟩
    rintro pos' ⟨⟩
    exact hheight
  | none =>
    dsimp only at h
    split at h
    · next hfind =>
      cases h
      exact findBlockPos_records hfind
    · next pos found hfind =>
      cases h
      obtain ⟨hrises, hentry, hheight⟩ := findBlockPos_records hfind
      refine ⟨hrises, hentry, ?_⟩
      rintro pos' ⟨⟩
      exact hheight pos rfl

theorem Covers.storeBlock (h : Covers nHeight s) (pindex : BlockPtr) (nBlockSize : Nat)
    (nTime : UInt64) (dbp : Option FlatFilePos) (outOfSpace : Bool) :
    Covers nHeight (s.storeBlock pindex nBlockSize (nHeight pindex) nTime dbp outOfSpace) := by
  rw [BlockFiles.storeBlock]
  split
  · exact h
  · split
    · next hsave =>
      obtain ⟨hrises, hentry, -⟩ := saveBlockToDisk_records hsave
      exact h.of_rises hrises hentry
    · next pos saved hsave =>
      obtain ⟨hrises, hentry, hheight⟩ := saveBlockToDisk_records hsave
      exact (h.of_rises hrises hentry).setEntry fun _ => hheight pos rfl

theorem findUndoPos_records {nFile : Nat} {nAddSize : UInt32} {outOfSpace : Bool}
    {result : Result FlatFilePos} (h : s.findUndoPos nFile nAddSize outOfSpace = (result, s')) :
    Rises s s' ∧ s'.entry = s.entry := by
  have hset : s'.vinfoBlockFile = s.vinfoBlockFile.set nFile
      { infoAt s.vinfoBlockFile nFile with
        nUndoSize := (infoAt s.vinfoBlockFile nFile).nUndoSize + nAddSize } ∧
      s'.entry = s.entry := by
    rw [findUndoPos] at h
    split at h <;> cases h <;> exact ⟨rfl, rfl⟩
  refine ⟨?_, hset.2⟩
  rcases Nat.lt_or_ge nFile s.vinfoBlockFile.length with hlength | hout
  · exact rises_set (fun _ => rfl) hlength hset.1 (UInt32.le_refl _)
  · intro n
    rw [hset.1, List.set_eq_of_length_le hout]
    exact UInt32.le_refl _

theorem Covers.writeUndoDataForBlock (h : Covers nHeight s) (pindex : BlockPtr) (nUndoSize : Nat)
    (outOfSpace : Bool) : Covers nHeight (s.writeUndoDataForBlock pindex nUndoSize outOfSpace) := by
  rw [BlockFiles.writeUndoDataForBlock]
  split
  · exact h
  · split
    · next hfind =>
      obtain ⟨hrises, hentry⟩ := findUndoPos_records hfind
      exact h.of_rises hrises hentry
    · next pos found hfind =>
      obtain ⟨hrises, hentry⟩ := findUndoPos_records hfind
      have hfound := h.of_rises hrises hentry
      exact hfound.setEntry (hfound pindex)

section Pruning

variable {last : UInt32} {queued queued' : List Nat}

/-- What pruning the queued files does, none of which has a block above `last`. -/
structure Prunes (nHeight : BlockPtr → UInt32) (last : UInt32) (queued : List Nat)
    (s s' : BlockFiles) : Prop where
  covers : Covers nHeight s → Covers nHeight s'
  above : Covers nHeight s → ∀ p, last < nHeight p → (s.entry p).haveData = true →
    s'.entry p = s.entry p
  fewer : ∀ fileNumber, s'.Refers fileNumber → s.Refers fileNumber
  gone : ∀ fileNumber ∈ queued, ¬ s'.Refers fileNumber

theorem Prunes.nothing (nHeight : BlockPtr → UInt32) (last : UInt32) (s : BlockFiles) :
    Prunes nHeight last [] s s where
  covers h := h
  above _ _ _ _ := rfl
  fewer _ h := h
  gone := by simp

theorem Prunes.trans (h : Prunes nHeight last queued s s')
    (h' : Prunes nHeight last queued' s' s'') : Prunes nHeight last (queued ++ queued') s s'' where
  covers hcovers := h'.covers (h.covers hcovers)
  above hcovers p hp hdata := by
    have hfirst := h.above hcovers p hp hdata
    rw [h'.above (h.covers hcovers) p hp (by rw [hfirst]; exact hdata), hfirst]
  fewer fileNumber hrefers := h.fewer _ (h'.fewer _ hrefers)
  gone fileNumber hmem hrefers := by
    rcases List.mem_append.mp hmem with hmem | hmem
    · exact h.gone _ hmem (h'.fewer _ hrefers)
    · exact h'.gone _ hmem hrefers

theorem infoAt_set_of_ne {nFile n : Nat} (hne : n ≠ nFile) (vinfo : List CBlockFileInfo)
    (info : CBlockFileInfo) : infoAt (vinfo.set nFile info) n = infoAt vinfo n := by
  unfold infoAt
  rw [List.getD_eq_getElem?_getD, List.getElem?_set_ne hne.symm, List.getD_eq_getElem?_getD]

theorem pruneOneBlockFile_entry_of_ne {fileNumber : Nat} {p : BlockPtr}
    (hne : (s.entry p).nFile ≠ fileNumber) : (s.pruneOneBlockFile fileNumber).entry p = s.entry p :=
  if_neg hne

theorem pruneOneBlockFile_entry_of_eq {fileNumber : Nat} {p : BlockPtr}
    (heq : (s.entry p).nFile = fileNumber) :
    (s.pruneOneBlockFile fileNumber).entry p = ⟨0, 0, 0, false, false⟩ :=
  if_pos heq

/-- A file may go when the height recorded for it is not above `last`. -/
theorem pruneOneBlockFile_prunes {fileNumber : Nat}
    (hlast : ¬ last < (infoAt s.vinfoBlockFile fileNumber).nHeightLast) :
    Prunes nHeight last [fileNumber] s (s.pruneOneBlockFile fileNumber) where
  covers hcovers p hdata := by
    by_cases hfile : (s.entry p).nFile = fileNumber
    · rw [pruneOneBlockFile_entry_of_eq hfile] at hdata
      cases hdata
    · rw [pruneOneBlockFile_entry_of_ne hfile] at hdata ⊢
      rw [pruneOneBlockFile, infoAt_set_of_ne hfile]
      exact hcovers p hdata
  above hcovers p hp hdata := by
    apply pruneOneBlockFile_entry_of_ne
    rintro rfl
    exact hlast (UInt32.lt_of_lt_of_le hp (hcovers p hdata))
  fewer n := by
    rintro ⟨p, hn, hp⟩
    by_cases hfile : (s.entry p).nFile = fileNumber
    · rw [pruneOneBlockFile_entry_of_eq hfile] at hp
      simp at hp
    · rw [pruneOneBlockFile_entry_of_ne hfile] at hn hp
      exact ⟨p, hn, hp⟩
  gone n hmem := by
    rintro ⟨p, hn, hp⟩
    rw [List.mem_singleton.mp hmem] at hn
    by_cases hfile : (s.entry p).nFile = fileNumber
    · rw [pruneOneBlockFile_entry_of_eq hfile] at hp
      simp at hp
    · rw [pruneOneBlockFile_entry_of_ne hfile] at hn
      exact hfile hn

theorem pruneManualLoop_prunes (nHeight : BlockPtr → UInt32) (last : UInt32) (files : List Nat)
    (s : BlockFiles) :
    Prunes nHeight last (pruneManualLoop last files s).1 s (pruneManualLoop last files s).2 := by
  induction files generalizing s with
  | nil => exact Prunes.nothing nHeight last s
  | cons fileNumber rest ih =>
    rw [pruneManualLoop]
    split
    · exact ih s
    · next hprune =>
      rw [not_or] at hprune
      exact (pruneOneBlockFile_prunes hprune.2).trans (ih _)

theorem pruneLoop_prunes (nHeight : BlockPtr → UInt32) (last : UInt32)
    (nPruneTarget nBuffer : UInt64) (files : List Nat) (nCurrentUsage : UInt64) (s : BlockFiles) :
    Prunes nHeight last (pruneLoop last nPruneTarget nBuffer files nCurrentUsage s).1 s
      (pruneLoop last nPruneTarget nBuffer files nCurrentUsage s).2 := by
  induction files generalizing nCurrentUsage s with
  | nil => exact Prunes.nothing nHeight last s
  | cons fileNumber rest ih =>
    rw [pruneLoop]
    split
    · exact ih nCurrentUsage s
    · split
      · exact Prunes.nothing nHeight last s
      · split
        · exact ih nCurrentUsage s
        · next hprune => exact (pruneOneBlockFile_prunes hprune).trans (ih _ _)

/-- An automatic pruning removes nothing, or is at a tip above `nPruneAfterHeight`. -/
theorem findFilesToPrune_prunes (nHeight : BlockPtr → UInt32) (s : BlockFiles)
    (nPruneAfterHeight nPruneTarget : UInt64) (fInitialBlockDownload : Bool)
    (tipHeight : Option UInt32) :
    let pruned :=
      s.findFilesToPrune nPruneAfterHeight nPruneTarget fInitialBlockDownload tipHeight
    pruned = ([], s) ∨ ∃ nTip, tipHeight = some nTip ∧ nPruneAfterHeight < nTip.toUInt64 ∧
      Prunes nHeight (nTip - blocksToKeep) pruned.1 s pruned.2 := by
  dsimp only
  unfold findFilesToPrune
  cases tipHeight with
  | none => exact .inl rfl
  | some nTip =>
    dsimp only
    split
    · exact .inl rfl
    · split
      · exact .inl rfl
      · next hafter =>
        split
        · exact .inr ⟨nTip, rfl, UInt64.not_le.mp hafter, pruneLoop_prunes _ _ _ _ _ _ _⟩
        · exact .inl rfl

theorem findFilesToPruneManual_prunes (nHeight : BlockPtr → UInt32) (s : BlockFiles)
    {nManualPruneHeight : Int32} (hheight : 0 < nManualPruneHeight) (tipHeight : Option UInt32) :
    ∃ pruned, s.findFilesToPruneManual true nManualPruneHeight tipHeight = .ok pruned ∧
      (pruned = ([], s) ∨ ∃ nTip, tipHeight = some nTip ∧
        Prunes nHeight (min nManualPruneHeight.toUInt32 (nTip - blocksToKeep))
          pruned.1 s pruned.2) := by
  unfold findFilesToPruneManual
  rw [assertThat_of ⟨rfl, hheight⟩, ok_bind]
  cases tipHeight with
  | none => exact ⟨_, rfl, .inl rfl⟩
  | some nTip => exact ⟨_, rfl, .inr ⟨nTip, rfl, pruneManualLoop_prunes _ _ _ _⟩⟩

theorem Covers.handle (h : Covers nHeight s) (event : StorageEvent) :
    Covers nHeight (s.handle nHeight event) := by
  cases event with
  | store pindex nBlockSize nTime dbp outOfSpace => exact h.storeBlock _ _ _ _ _
  | writeUndo pindex nUndoSize outOfSpace => exact h.writeUndoDataForBlock _ _ _
  | prune nPruneAfterHeight nPruneTarget fInitialBlockDownload tipHeight =>
    rw [BlockFiles.handle]
    rcases findFilesToPrune_prunes nHeight s nPruneAfterHeight nPruneTarget fInitialBlockDownload
      tipHeight with hnone | ⟨nTip, -, -, hprunes⟩
    · rw [hnone]
      exact h
    · exact hprunes.covers h
  | pruneManual fPruneMode nManualPruneHeight tipHeight =>
    rw [BlockFiles.handle]
    by_cases hassert : fPruneMode = true ∧ 0 < nManualPruneHeight
    · obtain ⟨rfl, hheight⟩ := hassert
      obtain ⟨pruned, hpruned, hnone | ⟨nTip, -, hprunes⟩⟩ :=
        findFilesToPruneManual_prunes nHeight s hheight tipHeight
      · rw [hpruned, hnone]
        exact h
      · rw [hpruned]
        exact hprunes.covers h
    · unfold findFilesToPruneManual
      rw [assertThat, rejectIf, if_pos hassert]
      exact h

theorem covers_foldl_handle (nHeight : BlockPtr → UInt32) (events : List StorageEvent) :
    Covers nHeight (events.foldl (handle nHeight) empty) := by
  apply List.foldlRecOn events (handle nHeight)
  · intro p hdata
    cases hdata
  · intro s h event _
    exact h.handle event

theorem min_le_keep (a b : UInt32) : min a b ≤ b := by
  change (if a ≤ b then a else b) ≤ b
  split
  · next hle => exact hle
  · exact UInt32.le_refl b

theorem KeepsRecent.nothing (nHeight : BlockPtr → UInt32) (tipHeight : Option UInt32)
    (s : BlockFiles) : KeepsRecent nHeight tipHeight s ([], s) where
  recent _ _ _ _ := rfl
  unreferenced := by simp

/-- The subtraction from the height of the tip must not wrap around. -/
theorem Prunes.keepsRecent {pruned : List Nat × BlockFiles} {nTip : UInt32}
    (h : Prunes nHeight last pruned.1 s pruned.2) (hcovers : Covers nHeight s)
    (htip : blocksToKeep ≤ nTip) (hlast : last ≤ nTip - blocksToKeep) :
    KeepsRecent nHeight (some nTip) s pruned where
  recent p hp hdata _ := by
    apply h.above hcovers p _ hdata
    have hnear := hp nTip rfl
    rw [UInt32.le_iff_toNat_le, UInt32.toNat_sub_of_le _ _ htip] at hlast
    rw [UInt32.le_iff_toNat_le] at htip
    rw [UInt32.lt_iff_toNat_lt]
    omega
  unreferenced := h.gone

/-- After any history of storage and prunings, a pruning at a tip that is high enough leaves the
entries within 288 blocks of the tip alone, on whatever branch they are, and the files it hands
over are referred to by no entry. -/
theorem pruning_keepsRecent (nHeight : BlockPtr → UInt32) (events : List StorageEvent) :
    let s := events.foldl (handle nHeight) empty
    (∀ nPruneAfterHeight nPruneTarget fInitialBlockDownload tipHeight,
      blocksToKeep.toUInt64 ≤ nPruneAfterHeight →
      KeepsRecent nHeight tipHeight s
        (s.findFilesToPrune nPruneAfterHeight nPruneTarget fInitialBlockDownload tipHeight)) ∧
    (∀ nManualPruneHeight tipHeight, 0 < nManualPruneHeight →
      (∀ nTip ∈ tipHeight, blocksToKeep ≤ nTip) →
      ∃ pruned, s.findFilesToPruneManual true nManualPruneHeight tipHeight = .ok pruned ∧
        KeepsRecent nHeight tipHeight s pruned) := by
  intro s
  have hcovers : Covers nHeight s := covers_foldl_handle nHeight events
  constructor
  · intro nPruneAfterHeight nPruneTarget fInitialBlockDownload tipHeight hafter
    rcases findFilesToPrune_prunes nHeight s nPruneAfterHeight nPruneTarget fInitialBlockDownload
      tipHeight with hnone | ⟨nTip, rfl, htip, hprunes⟩
    · rw [hnone]
      exact KeepsRecent.nothing nHeight tipHeight s
    · have hkeep : blocksToKeep ≤ nTip := by
        rw [UInt64.lt_iff_toNat_lt] at htip
        rw [UInt64.le_iff_toNat_le] at hafter
        rw [UInt32.le_iff_toNat_le]
        simp only [UInt32.toNat_toUInt64] at htip hafter
        omega
      exact hprunes.keepsRecent hcovers hkeep (UInt32.le_refl _)
  · intro nManualPruneHeight tipHeight hheight htip
    obtain ⟨pruned, hpruned, hresult⟩ :=
      findFilesToPruneManual_prunes nHeight s hheight tipHeight
    refine ⟨pruned, hpruned, ?_⟩
    rcases hresult with rfl | ⟨nTip, rfl, hprunes⟩
    · exact KeepsRecent.nothing nHeight tipHeight s
    · exact hprunes.keepsRecent hcovers (htip nTip rfl) (min_le_keep _ _)

/-- A low block in the first file and a recent one in the second. -/
def twoFiles : List StorageEvent :=
  [.store 5 200 0 (some ⟨0, 8⟩) false, .writeUndo 5 30 false,
   .store 300 200 0 (some ⟨1, 8⟩) false, .writeUndo 300 30 false]

theorem twoFiles_keepsRecent :
    ∃ pruned,
      (twoFiles.foldl (handle fun p => UInt32.ofNat p) empty).findFilesToPruneManual true 10
        (some 300) = .ok pruned ∧
      pruned.1 = [0] ∧ (pruned.2.entry 300).haveUndo = true := by
  obtain ⟨pruned, hpruned, hkeeps⟩ :=
    (pruning_keepsRecent (fun p => UInt32.ofNat p) twoFiles).2 10 (some 300) (by decide)
      (by rintro nTip ⟨⟩; decide)
  refine ⟨pruned, hpruned, ?_, ?_⟩
  · have hrun : (Except.toOption ((twoFiles.foldl (handle fun p => UInt32.ofNat p)
        empty).findFilesToPruneManual true 10 (some 300))).map Prod.fst = some [0] := by
      decide +kernel
    rw [hpruned] at hrun
    exact Option.some.inj hrun
  · have hnear : ∀ nTip ∈ some (300 : UInt32),
        nTip.toNat < (UInt32.ofNat 300).toNat + blocksToKeep.toNat := by
      rintro nTip ⟨⟩
      decide
    rw [hkeeps.recent 300 hnear (by decide) (by decide)]
    decide

end Pruning

end BlockFiles

end Verium
