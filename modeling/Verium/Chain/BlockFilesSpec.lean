import Verium.Chain.BlockFiles
import Verium.Coins.CompressorSpec

/-!
No two records overlap in the block files. A new record goes where its counter stands and the
counter moves past it, so the records of a file lie one after the other as long as no counter
overflows. The counter of a `blk` file cannot, because `FindBlockPos` leaves a file before it is
full; nothing bounds the counter of a `rev` file.
-/

namespace Verium

open Lib

theorem toNat_add_of_fits {a b : UInt32} (h : a.toNat + b.toNat < 2 ^ 32) :
    (a + b).toNat = a.toNat + b.toNat := by
  rw [UInt32.toNat_add]
  exact Nat.mod_eq_of_lt h

section Search

variable {vinfo : List CBlockFileInfo} {nAddSize : UInt32}

/-- The search ends: at the latest at a file that is not in the list yet. -/
theorem searchFile_ok (hadd : nAddSize.toNat < maxBlockfileSize.toNat)
    (hsmall : ∀ n, (infoAt vinfo n).nSize.toNat ≤ 2 ^ 31) {fuel nFile : Nat}
    (hfuel : vinfo.length < fuel + nFile) (hpos : 0 < fuel) :
    ∃ vinfo' nFile', searchFile nAddSize fuel vinfo nFile = some (vinfo', nFile') ∧
      infoAt vinfo' = infoAt vinfo ∧ vinfo.length ≤ vinfo'.length ∧ nFile' < vinfo'.length ∧
      (infoAt vinfo nFile').nSize.toNat + nAddSize.toNat < maxBlockfileSize.toNat := by
  induction fuel generalizing vinfo nFile with
  | zero => omega
  | succ fuel ih =>
    have hsum : ((infoAt (growTo vinfo nFile) nFile).nSize + nAddSize).toNat =
        (infoAt vinfo nFile).nSize.toNat + nAddSize.toNat := by
      have hmax : maxBlockfileSize.toNat = 2 ^ 27 := rfl
      have hinfo := hsmall nFile
      rw [infoAt_growTo]
      exact toNat_add_of_fits (by omega)
    rw [searchFile]
    split
    · next hfull =>
      -- a full file is in the list, so the search gets nearer to its end
      have hin : nFile < vinfo.length := by
        by_contra hout
        have hnull : infoAt vinfo nFile = .null := List.getD_eq_default _ _ (not_lt.mp hout)
        rw [UInt32.le_iff_toNat_le, hsum, hnull] at hfull
        have hzero : CBlockFileInfo.null.nSize.toNat = 0 := rfl
        omega
      have hsame : growTo vinfo nFile = vinfo := by
        rw [growTo, Nat.sub_eq_zero_of_le hin, List.replicate_zero, List.append_nil]
      rw [hsame]
      exact ih hsmall (by omega) (by omega)
    · next hroom =>
      refine ⟨_, _, rfl, ?_, length_le_growTo _ _, lt_length_growTo _ _, ?_⟩
      · funext n
        exact infoAt_growTo _ _ _
      · rw [UInt32.le_iff_toNat_le, hsum] at hroom
        omega

end Search

/-- Records lie apart and below the counters, the counters of the `blk` files are far from
overflowing, and blocks with data are in files that have an entry. -/
structure BlockFiles.Kept (s : BlockFiles) : Prop where
  laid : Laid s.sizeOf s.extents
  small : ∀ n, (infoAt s.vinfoBlockFile n).nSize.toNat ≤ 2 ^ 31
  stored : ∀ p, (s.entry p).haveData = true → (s.entry p).nFile < s.vinfoBlockFile.length

namespace BlockFiles

variable {s : BlockFiles}

theorem kept_empty : Kept .empty := by
  refine ⟨.nil _, ?_, ?_⟩
  · intro n
    exact Nat.zero_le _
  · intro p hp
    cases hp

theorem toNat_reserved {length : Nat} {extra : UInt32} (h : length + extra.toNat < 2 ^ 32) :
    (UInt32.ofNat length + extra).toNat = length + extra.toNat := by
  have hsize : UInt32.size = 2 ^ 32 := rfl
  have hlength : (UInt32.ofNat length).toNat = length := UInt32.toNat_ofNat_of_lt' (by omega)
  rw [toNat_add_of_fits (by omega), hlength]

theorem toNat_add_reserved {counter : UInt32} {length : Nat} {extra : UInt32}
    (h : counter.toNat + (length + extra.toNat) < 2 ^ 32) :
    (counter + (UInt32.ofNat length + extra)).toNat = counter.toNat + (length + extra.toNat) := by
  have hreserved := toNat_reserved (show length + extra.toNat < 2 ^ 32 by omega)
  rw [toNat_add_of_fits (by omega), hreserved]

theorem max_toNat (a b : UInt32) : (max a b).toNat = max a.toNat b.toNat := by
  change (if a ≤ b then b else a).toNat = _
  rw [max_def, apply_ite UInt32.toNat]
  simp only [UInt32.le_iff_toNat_le]

/-- The counters of one file are raised to those of `info`. -/
structure Raised (s s' : BlockFiles) (nFile : Nat) (info : CBlockFileInfo) : Prop where
  le : ∀ file, s.sizeOf file ≤ s'.sizeOf file
  blk : s'.sizeOf (.blk, nFile) = info.nSize.toNat
  rev : s'.sizeOf (.rev, nFile) = info.nUndoSize.toNat

theorem Kept.setInfo (h : s.Kept) {vinfo : List CBlockFileInfo} {nFile : Nat}
    (info : CBlockFileInfo) (hlt : nFile < vinfo.length)
    (hsame : infoAt vinfo = infoAt s.vinfoBlockFile) (hlen : s.vinfoBlockFile.length ≤ vinfo.length)
    (hsize : (infoAt s.vinfoBlockFile nFile).nSize.toNat ≤ info.nSize.toNat)
    (hundo : (infoAt s.vinfoBlockFile nFile).nUndoSize.toNat ≤ info.nUndoSize.toNat)
    (hsmall : info.nSize.toNat ≤ 2 ^ 31) {s' : BlockFiles}
    (hs' : s'.vinfoBlockFile = vinfo.set nFile info) (hentry : s'.entry = s.entry)
    (hlaid : Raised s s' nFile info → Laid s'.sizeOf s'.extents) : s'.Kept := by
  have hinfo : ∀ n, infoAt s'.vinfoBlockFile n =
      if n = nFile then info else infoAt s.vinfoBlockFile n := by
    intro n
    rw [hs', infoAt_set hlt, hsame]
  have hgrow : ∀ file, s.sizeOf file ≤ s'.sizeOf file := by
    rintro ⟨kind, n⟩
    have hn := hinfo n
    split at hn
    · next heq =>
      subst heq
      cases kind <;> simp only [sizeOf, hn, hsize, hundo]
    · cases kind <;> simp only [sizeOf, hn, le_refl]
  refine ⟨hlaid ⟨hgrow, ?_, ?_⟩, ?_, ?_⟩
  · simp only [sizeOf, hinfo, if_pos]
  · simp only [sizeOf, hinfo, if_pos]
  · intro n
    rw [hinfo]
    split
    · exact hsmall
    · exact h.small n
  · intro p hp
    rw [hentry] at hp ⊢
    rw [hs', List.length_set]
    exact (h.stored p hp).trans_le hlen

theorem Kept.setEntry (h : s.Kept) (pindex : BlockPtr) (disk : DiskEntry)
    (hdisk : disk.haveData = true → disk.nFile < s.vinfoBlockFile.length) :
    Kept { s with entry := Function.update s.entry pindex disk } := by
  refine ⟨h.laid, h.small, ?_⟩
  intro p hp
  dsimp only at hp ⊢
  rw [Function.update_apply] at hp ⊢
  split at hp
  · next heq =>
    rw [if_pos heq]
    exact hdisk hp
  · next hne =>
    rw [if_neg hne]
    exact h.stored p hp

theorem Kept.saveKnown (h : s.Kept) {nBlockSize : Nat} {pos : FlatFilePos}
    (hpos : pos.nPos.toNat + nBlockSize + 8 ≤ 2 ^ 31) (nHeight : UInt32) (nTime : UInt64)
    (outOfSpace : Bool) :
    ∃ s', s.saveBlockToDisk nBlockSize nHeight nTime (some pos) outOfSpace = (.ok pos, s') ∧
      s'.Kept ∧ pos.nFile < s'.vinfoBlockFile.length := by
  have hend : (pos.nPos + (UInt32.ofNat nBlockSize + 8)).toNat =
      pos.nPos.toNat + (nBlockSize + 8) :=
    toNat_add_reserved (show _ + (nBlockSize + 8) < 2 ^ 32 by omega)
  have hlt := lt_length_growTo s.vinfoBlockFile pos.nFile
  have hsame : infoAt (growTo s.vinfoBlockFile pos.nFile) = infoAt s.vinfoBlockFile :=
    funext fun n => infoAt_growTo _ _ n
  have hold := h.small pos.nFile
  obtain ⟨info, hinfo⟩ : ∃ info, info =
      (infoAt s.vinfoBlockFile pos.nFile).addBlock nHeight nTime :=
    ⟨_, rfl⟩
  have hcounter : info.nSize = (infoAt s.vinfoBlockFile pos.nFile).nSize := by
    rw [hinfo]
    rfl
  have hraised : (max (pos.nPos + (UInt32.ofNat nBlockSize + 8)) info.nSize).toNat =
      max (pos.nPos.toNat + (nBlockSize + 8)) info.nSize.toNat := by
    rw [max_toNat, hend]
  have hundo : info.nUndoSize = (infoAt s.vinfoBlockFile pos.nFile).nUndoSize := by
    rw [hinfo]
    rfl
  refine ⟨_, rfl, h.setInfo { info with
    nSize := max (pos.nPos + (UInt32.ofNat nBlockSize + 8)) info.nSize } hlt hsame
    (length_le_growTo _ _) ?_ (le_of_eq (congrArg _ hundo.symm)) ?_ ?_ rfl ?_, ?_⟩
  · rw [hraised, hcounter]
    exact le_max_right _ _
  · rw [hraised, hcounter]
    omega
  · rw [hinfo, ← hsame]
    rfl
  · intro hnew
    refine h.laid.find hnew.le ?_
    rw [hnew.blk, hraised]
    omega
  · change _ < (List.set _ _ _).length
    rw [List.length_set]
    exact hlt

theorem Kept.saveNew (h : s.Kept) {nBlockSize : Nat} (hblock : nBlockSize ≤ maxBlockWeight)
    (nHeight : UInt32) (nTime : UInt64) (outOfSpace : Bool) :
    ∃ r s', s.saveBlockToDisk nBlockSize nHeight nTime none outOfSpace = (r, s') ∧
      s'.Kept ∧ ∀ pos, r = .ok pos → pos.nFile < s'.vinfoBlockFile.length := by
  have hweight : maxBlockWeight = 1000000 := rfl
  have hmax : maxBlockfileSize.toNat = 2 ^ 27 := rfl
  have hreserved : (UInt32.ofNat nBlockSize + 8).toNat = nBlockSize + 8 :=
    toNat_reserved (show nBlockSize + 8 < 2 ^ 32 by omega)
  obtain ⟨vinfo, nFile, hsearch, hsame, hlen, hlt, hroom⟩ :=
    searchFile_ok (show (UInt32.ofNat nBlockSize + 8).toNat < maxBlockfileSize.toNat by omega)
      h.small (show s.vinfoBlockFile.length <
        s.vinfoBlockFile.length + 1 + s.nLastBlockFile by omega)
      (Nat.succ_pos _)
  have hsum : ((infoAt vinfo nFile).nSize + (UInt32.ofNat nBlockSize + 8)).toNat =
      (infoAt s.vinfoBlockFile nFile).nSize.toNat + (nBlockSize + 8) := by
    rw [hsame]
    exact toNat_add_reserved (show _ + (nBlockSize + 8) < 2 ^ 32 by omega)
  have hheader : ((infoAt vinfo nFile).nSize + 8).toNat =
      (infoAt s.vinfoBlockFile nFile).nSize.toNat + 8 := by
    rw [hsame]
    exact toNat_add_of_fits (show _ + 8 < 2 ^ 32 by omega)
  obtain ⟨info, hinfo⟩ : ∃ info : CBlockFileInfo, info =
      { (infoAt vinfo nFile).addBlock nHeight nTime with
        nSize := (infoAt vinfo nFile).nSize + (UInt32.ofNat nBlockSize + 8) } := ⟨_, rfl⟩
  have hsize : info.nSize.toNat =
      (infoAt s.vinfoBlockFile nFile).nSize.toNat + (nBlockSize + 8) := by
    rw [hinfo]
    exact hsum
  have hundo : info.nUndoSize = (infoAt s.vinfoBlockFile nFile).nUndoSize := by
    rw [hinfo, ← hsame]
    rfl
  have hkept : ∀ {s' : BlockFiles}, s'.vinfoBlockFile = vinfo.set nFile info →
      s'.entry = s.entry → (Raised s s' nFile info → Laid s'.sizeOf s'.extents) → s'.Kept :=
    h.setInfo info hlt hsame hlen (by omega) (le_of_eq (congrArg _ hundo.symm)) (by omega)
  simp only [saveBlockToDisk, findBlockPos, hsearch]
  cases outOfSpace with
  | true =>
    refine ⟨_, _, rfl, hkept (by rw [hinfo]; rfl) rfl fun hnew => h.laid.grow hnew.le, ?_⟩
    rintro pos ⟨⟩
  | false =>
    refine ⟨_, _, rfl, hkept (by rw [hinfo]; rfl) rfl fun hnew => h.laid.append hnew.le ?_ ?_, ?_⟩
    · change s.sizeOf (.blk, nFile) ≤ ((infoAt vinfo nFile).nSize + 8).toNat - 8
      rw [hheader]
      exact le_rfl
    · change ((infoAt vinfo nFile).nSize + 8).toNat + nBlockSize ≤ _
      rw [hnew.blk, hsize, hheader]
      omega
    · rintro _ ⟨⟩
      change _ < (List.set _ _ _).length
      rw [List.length_set]
      exact hlt

theorem Kept.storeBlock (h : s.Kept) {nBlockSize : Nat} {dbp : Option FlatFilePos}
    (hsize : nBlockSize ≤ maxBlockWeight)
    (hpos : ∀ pos ∈ dbp, pos.nPos.toNat + nBlockSize + 8 ≤ 2 ^ 31) (pindex : BlockPtr)
    (nHeight : UInt32) (nTime : UInt64) (outOfSpace : Bool) :
    (s.storeBlock pindex nBlockSize nHeight nTime dbp outOfSpace).Kept := by
  obtain ⟨r, s', hsave, hkept, hlt⟩ : ∃ r s',
      s.saveBlockToDisk nBlockSize nHeight nTime dbp outOfSpace = (r, s') ∧
      s'.Kept ∧ ∀ pos, r = .ok pos → pos.nFile < s'.vinfoBlockFile.length := by
    cases dbp with
    | none => exact h.saveNew hsize nHeight nTime outOfSpace
    | some pos =>
      obtain ⟨s', hsave, hkept, hlt⟩ :=
        h.saveKnown (hpos pos rfl) nHeight nTime outOfSpace
      refine ⟨.ok pos, s', hsave, hkept, ?_⟩
      rintro _ ⟨⟩
      exact hlt
  rw [BlockFiles.storeBlock]
  split
  · exact h
  · rw [hsave]
    cases r with
    | error e => exact hkept
    | ok pos => exact hkept.setEntry _ _ fun _ => hlt pos rfl

theorem Kept.writeUndoDataForBlock (h : s.Kept) {pindex : BlockPtr} {nUndoSize : Nat}
    (hdata : (s.entry pindex).haveData = true)
    (hroom : s.sizeOf (.rev, (s.entry pindex).nFile) + nUndoSize + 40 < 2 ^ 32)
    (outOfSpace : Bool) : (s.writeUndoDataForBlock pindex nUndoSize outOfSpace).Kept := by
  have hlt := h.stored pindex hdata
  change (infoAt s.vinfoBlockFile (s.entry pindex).nFile).nUndoSize.toNat + _ + _ < _ at hroom
  obtain ⟨nFile, hfile⟩ : ∃ nFile, nFile = (s.entry pindex).nFile := ⟨_, rfl⟩
  rw [← hfile] at hlt hroom
  have hsum : ((infoAt s.vinfoBlockFile nFile).nUndoSize + (UInt32.ofNat nUndoSize + 40)).toNat =
      (infoAt s.vinfoBlockFile nFile).nUndoSize.toNat + (nUndoSize + 40) :=
    toNat_add_reserved (show _ + (nUndoSize + 40) < 2 ^ 32 by omega)
  have hheader : ((infoAt s.vinfoBlockFile nFile).nUndoSize + 8).toNat =
      (infoAt s.vinfoBlockFile nFile).nUndoSize.toNat + 8 :=
    toNat_add_of_fits (show _ + 8 < 2 ^ 32 by omega)
  obtain ⟨info, hinfo⟩ : ∃ info : CBlockFileInfo, info =
      { infoAt s.vinfoBlockFile nFile with
        nUndoSize := (infoAt s.vinfoBlockFile nFile).nUndoSize + (UInt32.ofNat nUndoSize + 40) } :=
    ⟨_, rfl⟩
  have hsize : info.nSize = (infoAt s.vinfoBlockFile nFile).nSize := by
    rw [hinfo]
  have hundo : info.nUndoSize.toNat =
      (infoAt s.vinfoBlockFile nFile).nUndoSize.toNat + (nUndoSize + 40) := by
    rw [hinfo]
    exact hsum
  have hkept : ∀ s' : BlockFiles, s'.vinfoBlockFile = s.vinfoBlockFile.set nFile info →
      s'.entry = s.entry → (Raised s s' nFile info → Laid s'.sizeOf s'.extents) → s'.Kept :=
    fun _ => h.setInfo info hlt rfl le_rfl (le_of_eq (congrArg _ hsize.symm)) (by omega)
      (by rw [hsize]; exact h.small nFile)
  rw [BlockFiles.writeUndoDataForBlock]
  split
  · exact h
  · simp only [findUndoPos, ← hfile, ← hinfo]
    cases outOfSpace with
    | true => exact hkept _ rfl rfl fun hnew => h.laid.grow hnew.le
    | false =>
      refine Kept.setEntry (hkept { s with
        vinfoBlockFile := s.vinfoBlockFile.set nFile info
        extents := recordExtent .rev ⟨nFile, (infoAt s.vinfoBlockFile nFile).nUndoSize + 8⟩
          (nUndoSize + 32) true :: s.extents } rfl rfl ?_) pindex _ ?_
      · intro hnew
        refine h.laid.append hnew.le ?_ ?_
        · change s.sizeOf (.rev, nFile) ≤ ((infoAt s.vinfoBlockFile nFile).nUndoSize + 8).toNat - 8
          rw [hheader]
          exact le_rfl
        · change ((infoAt s.vinfoBlockFile nFile).nUndoSize + 8).toNat + (nUndoSize + 32) ≤ _
          rw [hnew.rev, hundo, hheader]
          omega
      · intro _
        change _ < (List.set _ _ _).length
        rw [List.length_set]
        exact h.stored pindex hdata

theorem Kept.pruneOneBlockFile (h : s.Kept) (fileNumber : Nat) :
    (s.pruneOneBlockFile fileNumber).Kept := by
  have hinfo : ∀ n, infoAt (s.vinfoBlockFile.set fileNumber .null) n =
      if n = fileNumber then .null else infoAt s.vinfoBlockFile n := by
    intro n
    rcases Nat.lt_or_ge fileNumber s.vinfoBlockFile.length with hlt | hge
    · exact infoAt_set hlt _ n
    · rw [List.set_eq_of_length_le hge]
      split
      · next heq =>
        subst heq
        exact List.getD_eq_default _ _ hge
      · rfl
  refine ⟨?_, ?_, ?_⟩
  · simp only [BlockFiles.pruneOneBlockFile, decide_not]
    refine h.laid.drop (fun file => file.2 = fileNumber) ?_
    rintro ⟨kind, n⟩ hne
    have hn : n ≠ fileNumber := of_decide_eq_false hne
    cases kind <;> simp only [sizeOf, hinfo, if_neg hn, le_refl]
  · intro n
    change (infoAt (s.vinfoBlockFile.set fileNumber .null) n).nSize.toNat ≤ _
    rw [hinfo]
    split
    · exact Nat.zero_le _
    · exact h.small n
  · intro p hp
    simp only [BlockFiles.pruneOneBlockFile, List.length_set] at hp ⊢
    split at hp
    · cases hp
    · next hne =>
      rw [if_neg hne]
      exact h.stored p hp

theorem Kept.next (h : s.Kept) {op : DiskOp} (hfits : op.Fits s) : (s.next op).Kept := by
  cases op with
  | save pindex nBlockSize nHeight nTime dbp outOfSpace =>
    exact h.storeBlock hfits.1 hfits.2 pindex nHeight nTime outOfSpace
  | writeUndo pindex nUndoSize outOfSpace =>
    exact h.writeUndoDataForBlock hfits.1 hfits.2 outOfSpace
  | prune fileNumber => exact h.pruneOneBlockFile fileNumber

end BlockFiles

/-- In every run of saved blocks, written undo data and pruned files in which no counter overflows,
the records in the files do not overlap and `FindBlockPos` finds a place for the next block. -/
theorem blockFiles_apart {ops : List DiskOp}
    (h : Along BlockFiles.next (fun s op => op.Fits s) .empty ops) :
    (ops.foldl BlockFiles.next .empty).RecordsApart ∧
      ∀ nBlockSize ≤ maxBlockWeight, ∃ found,
        searchFile (UInt32.ofNat nBlockSize + 8)
          ((ops.foldl BlockFiles.next .empty).vinfoBlockFile.length + 1)
          (ops.foldl BlockFiles.next .empty).vinfoBlockFile
          (ops.foldl BlockFiles.next .empty).nLastBlockFile = some found := by
  have hkept := Along.invariant (I := BlockFiles.Kept) (fun _ _ hs hfits => hs.next hfits)
    BlockFiles.kept_empty h
  refine ⟨⟨hkept.laid.below, hkept.laid.disjoint⟩, ?_⟩
  intro nBlockSize hsize
  have hmax : maxBlockfileSize.toNat = 2 ^ 27 := rfl
  have hweight : maxBlockWeight = 1000000 := rfl
  have hreserved : (UInt32.ofNat nBlockSize + 8).toNat = nBlockSize + 8 :=
    BlockFiles.toNat_reserved (show nBlockSize + 8 < 2 ^ 32 by omega)
  obtain ⟨vinfo, nFile, hsearch, -⟩ := searchFile_ok
    (show (UInt32.ofNat nBlockSize + 8).toNat < maxBlockfileSize.toNat by omega) hkept.small
    (Nat.lt_add_right _ (Nat.lt_succ_self _)) (Nat.succ_pos _)
  exact ⟨_, hsearch⟩

/-- A block with its undo data, a block that was found in the second file, another one behind it,
and the first file is pruned. -/
def sampleDiskOps : List DiskOp :=
  [.save 0 285 0 1472669240 none false, .writeUndo 0 1 false,
    .save 1 1000 1 1472669300 (some ⟨1, 8⟩) false, .save 2 1000 2 1472669360 none false,
    .writeUndo 2 77 false, .prune 0]

theorem sampleDiskOps_apart :
    (sampleDiskOps.foldl BlockFiles.next .empty).RecordsApart ∧
      (sampleDiskOps.foldl BlockFiles.next .empty).extents =
        [⟨(.rev, 1), 0, 117, true⟩, ⟨(.blk, 1), 1016, 2024, true⟩,
          ⟨(.blk, 1), 0, 1008, false⟩] := by
  refine ⟨(blockFiles_apart ?_).1, by decide +kernel⟩
  refine ⟨⟨by decide, by decide⟩, ⟨rfl, by decide +kernel⟩, ⟨by decide, ?_⟩, ⟨by decide, by decide⟩,
    ⟨rfl, by decide +kernel⟩, Nat.zero_lt_one, trivial⟩
  rintro _ ⟨⟩
  decide

/-- Pushes nineteen elements of the largest size and a last one that is true, so that an input with
an empty scriptSig spends it. It is as long as a script can be. -/
def wideScript : CScript :=
  (List.replicate 19 (0x4d :: 0x08 :: 0x02 :: List.replicate 520 1)).flatten ++
    62 :: List.replicate 62 1

def wideCoin : Coin :=
  ⟨⟨0, wideScript⟩, false, 1⟩

/-- The undo data of a block with one transaction beside the coinbase, which spends 24000 such
coins; its inputs take 41 bytes each. -/
def wideUndo : List (List Coin) :=
  [List.replicate 24000 wideCoin]

def wideUndoSize : Nat := 240120004

theorem serializeTxUndo_replicate {code : PubKeyCode} {c : Coin} {record : Bytes}
    (h : serializeTxInUndo code c = .ok record) (n : Nat) :
    ∃ undo, serializeTxUndo code (List.replicate n c) = .ok undo ∧
      undo.length = getSizeOfCompactSize n + n * record.length := by
  have hall : ∀ c' ∈ List.replicate n c, serializeTxInUndo code c' = .ok record := by
    intro c' hc'
    rw [List.eq_of_mem_replicate hc']
    exact h
  rw [serializeTxUndo, mapM_eq_ok hall, ok_bind]
  refine ⟨_, rfl, ?_⟩
  simp [writeCompactSize_length, List.map_replicate]

theorem serializeTxInUndo_wideCoin :
    ∃ record, serializeTxInUndo samplePubKeyCode wideCoin = .ok record ∧ record.length = 10005 := by
  have hlen : (serializeTxInUndo samplePubKeyCode wideCoin).toOption.map List.length =
      some 10005 := by
    decide +kernel
  obtain ⟨record, hrecord, hlen⟩ := Option.map_eq_some_iff.mp hlen
  exact ⟨record, toOption_eq_some.mp hrecord, hlen⟩

theorem serializeBlockUndo_wideUndo :
    ∃ undo, serializeBlockUndo samplePubKeyCode wideUndo = .ok undo ∧
      undo.length = wideUndoSize := by
  obtain ⟨record, hrecord, hlen⟩ := serializeTxInUndo_wideCoin
  obtain ⟨undo, hundo, hundoLen⟩ := serializeTxUndo_replicate hrecord 24000
  refine ⟨writeCompactSize 1 ++ [undo].flatten, ?_, ?_⟩
  · rw [serializeBlockUndo, wideUndo, List.mapM_cons, hundo]
    rfl
  · rw [List.length_append, List.flatten_singleton, hundoLen, hlen, writeCompactSize_length]
    rfl

/-- Blocks of the largest size are stored, each followed by its undo data. -/
def wideRun (count : Nat) : BlockFiles :=
  ((List.range count).flatMap fun pindex =>
    [.save pindex maxBlockWeight 0 0 none false,
      .writeUndo pindex wideUndoSize false]).foldl BlockFiles.next .empty

/-- The counter of the `rev` file overflows at the eighteenth block, and the undo data of the next
one is written into that of the first. -/
theorem wideRun_overlaps :
    (∃ undo, serializeBlockUndo samplePubKeyCode wideUndo = .ok undo ∧
      undo.length = wideUndoSize) ∧
    24000 ≤ maxInputsPerBlock ∧
    ¬ (∀ r ∈ (wideRun 18).extents, r.stop ≤ (wideRun 18).sizeOf r.file) ∧
    (wideRun 19).extents[0]? = some ⟨(.rev, 0), 27193496, 267313540, true⟩ ∧
    (wideRun 19).extents[36]? = some ⟨(.rev, 0), 0, 240120044, true⟩ := by
  refine ⟨serializeBlockUndo_wideUndo, by decide +kernel, by decide +kernel, by decide +kernel,
    by decide +kernel⟩

end Verium
