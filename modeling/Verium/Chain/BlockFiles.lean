import Mathlib.Data.List.GetD
import Verium.Chain.Index
import Verium.Coins.Compressor
import Verium.Lib.Memory
import Verium.Lib.Iteration

/-!
Where blocks and undo data go in the `blk` and `rev` files: `FindBlockPos`, `FindUndoPos`, the
functions around them and `PruneOneBlockFile`. Each file has an entry in `vinfoBlockFile` whose
counters say where the next block or undo record goes; they are 32 bits wide. A write that fails
ends the node and is left out, and so are `m_blocks_unlinked` and the sets of dirty entries.
-/

namespace Verium

open Lib

structure FlatFilePos where
  nFile : Nat
  nPos : UInt32
deriving DecidableEq, Repr

structure CBlockFileInfo where
  nBlocks : UInt32
  nSize : UInt32
  nUndoSize : UInt32
  nHeightFirst : UInt32
  nHeightLast : UInt32
  nTimeFirst : UInt64
  nTimeLast : UInt64
deriving DecidableEq, Repr

namespace CBlockFileInfo

def null : CBlockFileInfo :=
  ⟨0, 0, 0, 0, 0, 0, 0⟩

/-- `AddBlock(nHeightIn, nTimeIn)`, which does not update `nSize`. -/
def addBlock (info : CBlockFileInfo) (nHeightIn : UInt32) (nTimeIn : UInt64) : CBlockFileInfo :=
  { info with
    nHeightFirst :=
      if info.nBlocks = 0 ∨ nHeightIn < info.nHeightFirst then nHeightIn else info.nHeightFirst
    nTimeFirst := if info.nBlocks = 0 ∨ nTimeIn < info.nTimeFirst then nTimeIn else info.nTimeFirst
    nBlocks := info.nBlocks + 1
    nHeightLast := if info.nHeightLast < nHeightIn then nHeightIn else info.nHeightLast
    nTimeLast := if info.nTimeLast < nTimeIn then nTimeIn else info.nTimeLast }

end CBlockFileInfo

def maxBlockfileSize : UInt32 := 0x8000000

structure DiskEntry where
  nFile : Nat
  nDataPos : UInt32
  nUndoPos : UInt32
  haveData : Bool
  haveUndo : Bool
deriving DecidableEq, Repr

inductive FileKind where
  | blk
  | rev
deriving DecidableEq, Repr

/-- The bookkeeping of the block files, the entries of the index, and what is in the files: for each
block or undo record the range from the header in front of it to its end. -/
structure BlockFiles where
  vinfoBlockFile : List CBlockFileInfo
  nLastBlockFile : Nat
  entry : BlockPtr → DiskEntry
  extents : List (Extent (FileKind × Nat))

def BlockFiles.empty : BlockFiles where
  vinfoBlockFile := []
  nLastBlockFile := 0
  entry _ := ⟨0, 0, 0, false, false⟩
  extents := []

def infoAt (vinfo : List CBlockFileInfo) (nFile : Nat) : CBlockFileInfo :=
  vinfo.getD nFile .null

/-- `vinfoBlockFile.resize(nFile + 1)` if it is not that long. -/
def growTo (vinfo : List CBlockFileInfo) (nFile : Nat) : List CBlockFileInfo :=
  vinfo ++ List.replicate (nFile + 1 - vinfo.length) .null

/-- The search loop of `FindBlockPos`; `none` if it is still running. -/
def searchFile (nAddSize : UInt32) :
    (fuel : Nat) → List CBlockFileInfo → (nFile : Nat) → Option (List CBlockFileInfo × Nat)
  | 0, _, _ => none
  | fuel + 1, vinfo, nFile =>
      let vinfo := growTo vinfo nFile
      if maxBlockfileSize ≤ (infoAt vinfo nFile).nSize + nAddSize then
        searchFile nAddSize fuel vinfo (nFile + 1)
      else some (vinfo, nFile)

/-- The extent of a record at `nPos`, which follows a header of eight bytes. -/
def recordExtent (kind : FileKind) (pos : FlatFilePos) (length : Nat) (written : Bool) :
    Extent (FileKind × Nat) :=
  ⟨(kind, pos.nFile), pos.nPos.toNat - 8, pos.nPos.toNat + length, written⟩

/-- `CBlockUndo::Serialize`: the undo data of every transaction but the coinbase. -/
def serializeBlockUndo (code : PubKeyCode) (vtxundo : List (List Coin)) : Result Bytes := do
  let records ← vtxundo.mapM (serializeTxUndo code)
  return writeCompactSize vtxundo.length ++ records.flatten

namespace BlockFiles

/-- `FindBlockPos(pos, nAddSize, nHeight, nTime, fKnown)` for a position that is known. -/
def findKnownBlockPos (s : BlockFiles) (pos : FlatFilePos) (nAddSize nHeight : UInt32)
    (nTime : UInt64) : BlockFiles :=
  let vinfo := growTo s.vinfoBlockFile pos.nFile
  let info := (infoAt vinfo pos.nFile).addBlock nHeight nTime
  { s with
    vinfoBlockFile := vinfo.set pos.nFile
      { info with nSize := max (pos.nPos + nAddSize) info.nSize }
    nLastBlockFile := pos.nFile }

/-- `FindBlockPos(pos, nAddSize, nHeight, nTime, fKnown)` otherwise. The space is counted even if
the disk does not have it. -/
def findBlockPos (s : BlockFiles) (nAddSize nHeight : UInt32) (nTime : UInt64)
    (outOfSpace : Bool) : Result FlatFilePos × BlockFiles :=
  match searchFile nAddSize (s.vinfoBlockFile.length + 1) s.vinfoBlockFile s.nLastBlockFile with
  | none => (.error (.error "FindBlockPos does not return"), s)
  | some (vinfo, nFile) =>
      let pos : FlatFilePos := ⟨nFile, (infoAt vinfo nFile).nSize⟩
      let info := (infoAt vinfo nFile).addBlock nHeight nTime
      let s := { s with
        vinfoBlockFile := vinfo.set nFile { info with nSize := info.nSize + nAddSize }
        nLastBlockFile := nFile }
      if outOfSpace then (.error (.error "Disk space is too low!"), s) else (.ok pos, s)

/-- `SaveBlockToDisk(block, nHeight, chainparams, dbp)` for a block of the given size. A block with
a known position is on disk already; otherwise `WriteBlockToDisk` puts the message start and the
size in front of it and moves the position behind them. -/
def saveBlockToDisk (s : BlockFiles) (nBlockSize : Nat) (nHeight : UInt32) (nTime : UInt64)
    (dbp : Option FlatFilePos) (outOfSpace : Bool) : Result FlatFilePos × BlockFiles :=
  let nAddSize := UInt32.ofNat nBlockSize + 8
  match dbp with
  | some pos =>
      let s := s.findKnownBlockPos pos nAddSize nHeight nTime
      (.ok pos, { s with extents := recordExtent .blk pos nBlockSize false :: s.extents })
  | none =>
      match s.findBlockPos nAddSize nHeight nTime outOfSpace with
      | (.error e, s) => (.error e, s)
      | (.ok pos, s) =>
          let pos := { pos with nPos := pos.nPos + 8 }
          (.ok pos, { s with extents := recordExtent .blk pos nBlockSize true :: s.extents })

/-- A block that `AcceptBlock` stores: its entry gets the position. One that has data is left
alone. -/
def storeBlock (s : BlockFiles) (pindex : BlockPtr) (nBlockSize : Nat) (nHeight : UInt32)
    (nTime : UInt64) (dbp : Option FlatFilePos) (outOfSpace : Bool) : BlockFiles :=
  if (s.entry pindex).haveData then s
  else
    match s.saveBlockToDisk nBlockSize nHeight nTime dbp outOfSpace with
    | (.error _, s) => s
    | (.ok pos, s) =>
        { s with
          entry := Function.update s.entry pindex
            ⟨pos.nFile, pos.nPos, 0, true, (s.entry pindex).haveUndo⟩ }

def findUndoPos (s : BlockFiles) (nFile : Nat) (nAddSize : UInt32) (outOfSpace : Bool) :
    Result FlatFilePos × BlockFiles :=
  let info := infoAt s.vinfoBlockFile nFile
  let pos : FlatFilePos := ⟨nFile, info.nUndoSize⟩
  let s := { s with
    vinfoBlockFile := s.vinfoBlockFile.set nFile
      { info with nUndoSize := info.nUndoSize + nAddSize } }
  if outOfSpace then (.error (.error "Disk space is too low!"), s) else (.ok pos, s)

/-- `WriteUndoDataForBlock(blockundo, state, pindex, chainparams)` for undo data of the given size:
`UndoWriteToDisk` puts the header in front of it and a checksum of 32 bytes behind it. -/
def writeUndoDataForBlock (s : BlockFiles) (pindex : BlockPtr) (nUndoSize : Nat)
    (outOfSpace : Bool) : BlockFiles :=
  if (s.entry pindex).haveUndo then s
  else
    match s.findUndoPos (s.entry pindex).nFile (UInt32.ofNat nUndoSize + 40) outOfSpace with
    | (.error _, s) => s
    | (.ok pos, s) =>
        let pos := { pos with nPos := pos.nPos + 8 }
        { s with
          entry := Function.update s.entry pindex
            { s.entry pindex with nUndoPos := pos.nPos, haveUndo := true }
          extents := recordExtent .rev pos (nUndoSize + 32) true :: s.extents }

/-- `PruneOneBlockFile(fileNumber)`, after which its callers delete the two files. -/
def pruneOneBlockFile (s : BlockFiles) (fileNumber : Nat) : BlockFiles :=
  { s with
    entry := fun pindex =>
      if (s.entry pindex).nFile = fileNumber then ⟨0, 0, 0, false, false⟩ else s.entry pindex
    vinfoBlockFile := s.vinfoBlockFile.set fileNumber .null
    extents := s.extents.filter fun r => r.file.2 ≠ fileNumber }

end BlockFiles

inductive DiskOp where
  | save (pindex : BlockPtr) (nBlockSize : Nat) (nHeight : UInt32) (nTime : UInt64)
      (dbp : Option FlatFilePos) (outOfSpace : Bool)
  | writeUndo (pindex : BlockPtr) (nUndoSize : Nat) (outOfSpace : Bool)
  | prune (fileNumber : Nat)

def BlockFiles.next (s : BlockFiles) : DiskOp → BlockFiles
  | .save pindex nBlockSize nHeight nTime dbp outOfSpace =>
      s.storeBlock pindex nBlockSize nHeight nTime dbp outOfSpace
  | .writeUndo pindex nUndoSize outOfSpace => s.writeUndoDataForBlock pindex nUndoSize outOfSpace
  | .prune fileNumber => s.pruneOneBlockFile fileNumber

def BlockFiles.sizeOf (s : BlockFiles) (file : FileKind × Nat) : Nat :=
  match file with
  | (.blk, nFile) => (infoAt s.vinfoBlockFile nFile).nSize.toNat
  | (.rev, nFile) => (infoAt s.vinfoBlockFile nFile).nUndoSize.toNat

/-- The operation is one the node makes, and the counters do not overflow: blocks are within the
size limit of `CheckBlock`, a known position is in the first two gigabytes of its file, undo data is
for a block that is stored and its file stays below four gigabytes, and only files before the
current one are pruned. -/
def DiskOp.Fits (s : BlockFiles) : DiskOp → Prop
  | .save _ nBlockSize _ _ dbp _ => nBlockSize ≤ maxBlockWeight ∧
      ∀ pos ∈ dbp, pos.nPos.toNat + nBlockSize + 8 ≤ 2 ^ 31
  | .writeUndo pindex nUndoSize _ => (s.entry pindex).haveData = true ∧
      s.sizeOf (.rev, (s.entry pindex).nFile) + nUndoSize + 40 < 2 ^ 32
  | .prune fileNumber => fileNumber < s.nLastBlockFile

/-- The records lie below the recorded sizes, and where a record is written nothing else is. -/
structure BlockFiles.RecordsApart (s : BlockFiles) : Prop where
  below : ∀ r ∈ s.extents, r.stop ≤ s.sizeOf r.file
  apart : s.extents.Pairwise fun later earlier => later.written = true →
    later.file = earlier.file → ∀ byte, ¬ (later.start ≤ byte ∧ byte < later.stop ∧
      earlier.start ≤ byte ∧ byte < earlier.stop)

section Infos

variable {vinfo : List CBlockFileInfo} {nFile : Nat}

@[simp]
theorem infoAt_growTo (vinfo : List CBlockFileInfo) (nFile n : Nat) :
    infoAt (growTo vinfo nFile) n = infoAt vinfo n := by
  unfold infoAt growTo
  rcases Nat.lt_or_ge n vinfo.length with hlt | hge
  · rw [List.getD_append _ _ _ _ hlt]
  · rw [List.getD_append_right _ _ _ _ hge, List.getD_eq_default vinfo _ hge]
    rcases Nat.lt_or_ge (n - vinfo.length) (nFile + 1 - vinfo.length) with hin | hout
    · exact List.getD_replicate _ hin
    · exact List.getD_eq_default _ _ (by rw [List.length_replicate]; exact hout)

theorem lt_length_growTo (vinfo : List CBlockFileInfo) (nFile : Nat) :
    nFile < (growTo vinfo nFile).length := by
  rw [growTo, List.length_append, List.length_replicate]
  omega

theorem length_le_growTo (vinfo : List CBlockFileInfo) (nFile : Nat) :
    vinfo.length ≤ (growTo vinfo nFile).length := by
  rw [growTo, List.length_append]
  omega

theorem infoAt_set (h : nFile < vinfo.length) (info : CBlockFileInfo) (n : Nat) :
    infoAt (vinfo.set nFile info) n = if n = nFile then info else infoAt vinfo n := by
  unfold infoAt
  rw [List.getD_eq_getElem?_getD, List.getElem?_set]
  split
  · next heq =>
    subst heq
    rw [if_pos rfl]
    rfl
  · next hne =>
    rw [if_neg (Ne.symm hne), List.getD_eq_getElem?_getD]

end Infos

end Verium
