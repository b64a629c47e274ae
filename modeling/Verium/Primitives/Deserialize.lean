import Verium.Consensus.Validation
import Verium.Lib.Codec
import Verium.Primitives.Block

/-!
Reading what `serialize.h` writes. A reader fails with the exception that the stream or the
deserialization code throws. Vectors are read element by element; the blocks in which the memory
for them is allocated are left out.
-/

namespace Verium

open Lib

abbrev StreamReader := Reader UInt8 Failure

/-- The largest size that `ReadCompactSize` returns. -/
def maxSize : Nat := 0x02000000

def endOfData : Failure := .exception "CDataStream::read(): end of data"

/-- `ser_readdata8` and its wider siblings. -/
def readLE (width : Nat) : StreamReader Nat := do
  let b ← readExact endOfData width
  return leNat b

def readUInt32 : StreamReader UInt32 := do
  let n ← readLE 4
  return UInt32.ofNat n

def readInt32 : StreamReader Int32 := do
  let n ← readLE 4
  return (UInt32.ofNat n).toInt32

def readInt64 : StreamReader Int64 := do
  let n ← readLE 8
  return (UInt64.ofNat n).toInt64

def readUInt256 : StreamReader UInt256 := do
  let n ← readLE 32
  return BitVec.ofNat 256 n

/-- A size that must not fit in a narrower form. -/
def readWideSize (width least : Nat) : StreamReader Nat := do
  let nSizeRet ← readLE width
  refuseIf (nSizeRet < least) (.exception "non-canonical ReadCompactSize()")
  return nSizeRet

/-- The size that the first byte of a compact size announces. -/
def readSizeField (chSize : Nat) : StreamReader Nat :=
  if chSize < 253 then pure chSize
  else if chSize = 253 then readWideSize 2 253
  else if chSize = 254 then readWideSize 4 0x10000
  else readWideSize 8 0x100000000

def readCompactSize : StreamReader Nat := do
  let chSize ← readLE 1
  let nSizeRet ← readSizeField chSize
  refuseIf (maxSize < nSizeRet) (.exception "ReadCompactSize(): size too large")
  return nSizeRet

def readVector {α : Type} (read : StreamReader α) : StreamReader (List α) := do
  let nSize ← readCompactSize
  readMany read nSize

def readBytes : StreamReader Bytes := do
  let nSize ← readCompactSize
  readExact endOfData nSize

def COutPoint.unserialize : StreamReader COutPoint := do
  let hash ← readUInt256
  let n ← readUInt32
  return ⟨hash, n⟩

def CTxIn.unserialize : StreamReader CTxIn := do
  let prevout ← COutPoint.unserialize
  let scriptSig ← readBytes
  let nSequence ← readUInt32
  return { prevout, scriptSig, nSequence }

def CTxOut.unserialize : StreamReader CTxOut := do
  let nValue ← readInt64
  let scriptPubKey ← readBytes
  return ⟨nValue, scriptPubKey⟩

def unserializeTransaction : StreamReader CTransaction := do
  let nVersion ← readInt32
  let nTime ← readUInt32
  let vin ← readVector CTxIn.unserialize
  let vout ← readVector CTxOut.unserialize
  let nLockTime ← readUInt32
  return ⟨nVersion, nTime, vin, vout, nLockTime⟩

theorem codec_readLE (width : Nat) : Codec (readLE width) (leBytes width) (· < 256 ^ width) where
  reads := by
    intro n hn
    have hread := (Reads.readExact endOfData (leBytes_length width n)).map leNat
    rw [leNat_leBytes_of_lt hn] at hread
    exact hread
  sound := by
    intro input n rest h
    obtain ⟨b, mid, hb, h⟩ := reader_bind_eq_ok.mp h
    obtain ⟨rfl, rfl⟩ := reader_pure_eq_ok.mp h
    obtain ⟨rfl, rfl⟩ := readExact_eq_ok.mp hb
    exact ⟨leNat_lt b, by rw [leBytes_leNat]⟩

theorem codec_readUInt32 : Codec readUInt32 serUInt32 fun _ => True := by
  refine (codec_readLE 4).map UInt32.ofNat UInt32.toNat ?_ ?_
  · intro n hn
    exact ⟨trivial, UInt32.toNat_ofNat_of_lt' hn⟩
  · intro x _
    exact ⟨x.toNat_lt, UInt32.ofNat_toNat⟩

theorem codec_readInt32 : Codec readInt32 serInt32 fun _ => True := by
  refine (codec_readLE 4).map (fun n => (UInt32.ofNat n).toInt32) (fun x => x.toUInt32.toNat) ?_ ?_
  · intro n hn
    refine ⟨trivial, ?_⟩
    rw [UInt32.toUInt32_toInt32]
    exact UInt32.toNat_ofNat_of_lt' hn
  · intro x _
    refine ⟨x.toUInt32.toNat_lt, ?_⟩
    rw [UInt32.ofNat_toNat, Int32.toInt32_toUInt32]

theorem codec_readInt64 : Codec readInt64 serInt64 fun _ => True := by
  refine (codec_readLE 8).map (fun n => (UInt64.ofNat n).toInt64) (fun x => x.toUInt64.toNat) ?_ ?_
  · intro n hn
    refine ⟨trivial, ?_⟩
    rw [UInt64.toUInt64_toInt64]
    exact UInt64.toNat_ofNat_of_lt' hn
  · intro x _
    refine ⟨x.toUInt64.toNat_lt, ?_⟩
    rw [UInt64.ofNat_toNat, Int64.toInt64_toUInt64]

theorem codec_readUInt256 : Codec readUInt256 serUInt256 fun _ => True := by
  refine (codec_readLE 32).map (BitVec.ofNat 256) BitVec.toNat ?_ ?_
  · intro n hn
    refine ⟨trivial, ?_⟩
    rw [BitVec.toNat_ofNat]
    exact Nat.mod_eq_of_lt (lt_of_lt_of_eq hn (by norm_num))
  · intro x _
    refine ⟨lt_of_lt_of_eq x.isLt (by norm_num), ?_⟩
    rw [BitVec.ofNat_toNat, BitVec.setWidth_eq]

theorem codec_readWideSize (width least : Nat) :
    Codec (readWideSize width least) (leBytes width) fun n => least ≤ n ∧ n < 256 ^ width where
  reads := by
    rintro n ⟨hleast, hn⟩
    rw [← List.append_nil (leBytes width n)]
    refine ((codec_readLE width).reads hn).bind ?_
    exact (Reads.refuseIf (Nat.not_lt.mpr hleast)).bind (Reads.pure n)
  sound := by
    intro input n rest h
    obtain ⟨n', mid, hn', h⟩ := reader_bind_eq_ok.mp h
    obtain ⟨⟨⟩, mid', hrefuse, h⟩ := reader_bind_eq_ok.mp h
    obtain ⟨rfl, rfl⟩ := reader_pure_eq_ok.mp h
    obtain ⟨hleast, rfl⟩ := refuseIf_eq_ok.mp hrefuse
    obtain ⟨hlt, rfl⟩ := (codec_readLE width).sound hn'
    exact ⟨⟨Nat.not_lt.mp hleast, hlt⟩, rfl⟩

/-- Each of the four forms is used for the sizes that do not fit in a narrower one. -/
theorem codec_readCompactSize : Codec readCompactSize writeCompactSize (· ≤ maxSize) where
  reads := by
    intro n hn
    have hmax : maxSize = 33554432 := rfl
    have hend : Reads (do
        refuseIf (maxSize < n) (.exception "ReadCompactSize(): size too large")
        return n : StreamReader Nat) [] n :=
      (Reads.refuseIf (Nat.not_lt.mpr hn)).bind (Reads.pure n)
    have hfirst : ∀ ch, ch < 256 → Reads (readLE 1) [UInt8.ofNat ch] ch := by
      intro ch hch
      exact (codec_readLE 1).reads hch
    unfold writeCompactSize
    split_ifs with h1 h2 h3
    · have hfield : Reads (readSizeField n) [] n := by
        unfold readSizeField
        rw [if_pos h1]
        exact Reads.pure n
      exact (hfirst n (by omega)).bind (hfield.bind hend)
    · have hfield : Reads (readSizeField 253) (leBytes 2 n) n :=
        (codec_readWideSize 2 253).reads ⟨by omega, by omega⟩
      rw [← List.append_nil (leBytes 2 n)]
      exact (hfirst 253 (by decide)).bind (hfield.bind hend)
    · have hfield : Reads (readSizeField 254) (leBytes 4 n) n :=
        (codec_readWideSize 4 0x10000).reads ⟨by omega, by omega⟩
      rw [← List.append_nil (leBytes 4 n)]
      exact (hfirst 254 (by decide)).bind (hfield.bind hend)
    · omega
  sound := by
    intro input n rest h
    obtain ⟨chSize, mid, hch, h⟩ := reader_bind_eq_ok.mp h
    obtain ⟨n', mid', hfield, h⟩ := reader_bind_eq_ok.mp h
    obtain ⟨⟨⟩, mid'', hrefuse, h⟩ := reader_bind_eq_ok.mp h
    obtain ⟨rfl, rfl⟩ := reader_pure_eq_ok.mp h
    obtain ⟨hle, rfl⟩ := refuseIf_eq_ok.mp hrefuse
    obtain ⟨hlt, rfl⟩ := (codec_readLE 1).sound hch
    refine ⟨Nat.not_lt.mp hle, ?_⟩
    unfold readSizeField at hfield
    unfold writeCompactSize
    split_ifs at hfield with h1 h2 h3
    · obtain ⟨rfl, rfl⟩ := reader_pure_eq_ok.mp hfield
      rw [if_pos h1]
    · obtain ⟨⟨hleast, hwide⟩, rfl⟩ := (codec_readWideSize 2 253).sound hfield
      subst h2
      rw [if_neg (by omega), if_pos (by omega)]
      rfl
    · obtain ⟨⟨hleast, hwide⟩, rfl⟩ := (codec_readWideSize 4 0x10000).sound hfield
      subst h3
      rw [if_neg (by omega), if_neg (by omega), if_pos (by omega)]
      rfl
    · obtain ⟨⟨hleast, hwide⟩, rfl⟩ := (codec_readWideSize 8 0x100000000).sound hfield
      obtain rfl : chSize = 255 := by omega
      rw [if_neg (by omega), if_neg (by omega), if_neg (by omega)]
      rfl

theorem codec_readVector {α : Type} {read : StreamReader α} {ser : α → Bytes}
    {Valid : α → Prop} (hread : Codec read ser Valid) :
    Codec (readVector read) (serVector ser) fun v =>
      v.length ≤ maxSize ∧ ∀ a ∈ v, Valid a where
  reads := by
    rintro v ⟨hlength, hvalid⟩
    exact (codec_readCompactSize.reads hlength).bind
      (Reads.readMany fun a ha => hread.reads (hvalid a ha))
  sound := by
    intro input v rest h
    obtain ⟨n, mid, hn, hmany⟩ := reader_bind_eq_ok.mp h
    obtain ⟨hle, rfl⟩ := codec_readCompactSize.sound hn
    obtain ⟨rfl, hvalid, rfl⟩ := readMany_sound hread hmany
    refine ⟨⟨hle, hvalid⟩, ?_⟩
    rw [serVector, List.append_assoc]

theorem codec_readBytes : Codec readBytes serBytes fun b => b.length ≤ maxSize where
  reads := by
    intro b hlength
    exact (codec_readCompactSize.reads hlength).bind (Reads.readExact endOfData rfl)
  sound := by
    intro input b rest h
    obtain ⟨n, mid, hn, hexact⟩ := reader_bind_eq_ok.mp h
    obtain ⟨hle, rfl⟩ := codec_readCompactSize.sound hn
    obtain ⟨rfl, rfl⟩ := readExact_eq_ok.mp hexact
    refine ⟨hle, ?_⟩
    rw [serBytes, List.append_assoc]

theorem codec_outPoint : Codec COutPoint.unserialize COutPoint.serialize fun _ => True where
  reads := by
    rintro ⟨hash, n⟩ -
    exact (codec_readUInt256.reads trivial).bind ((codec_readUInt32.reads trivial).map _)
  sound := by
    intro input o rest h
    obtain ⟨hash, mid, hhash, h⟩ := reader_bind_eq_ok.mp h
    obtain ⟨n, mid', hn, h⟩ := reader_bind_eq_ok.mp h
    obtain ⟨rfl, rfl⟩ := reader_pure_eq_ok.mp h
    obtain ⟨-, rfl⟩ := codec_readUInt256.sound hhash
    obtain ⟨-, rfl⟩ := codec_readUInt32.sound hn
    refine ⟨trivial, ?_⟩
    rw [COutPoint.serialize, List.append_assoc]

theorem codec_txIn : Codec CTxIn.unserialize CTxIn.serialize fun txin =>
    txin.scriptSig.length ≤ maxSize ∧ txin.scriptWitness = [] where
  reads := by
    rintro ⟨prevout, scriptSig, nSequence, scriptWitness⟩ ⟨hlength, rfl⟩
    rw [CTxIn.serialize, List.append_assoc]
    exact (codec_outPoint.reads trivial).bind ((codec_readBytes.reads hlength).bind
      ((codec_readUInt32.reads trivial).map _))
  sound := by
    intro input txin rest h
    obtain ⟨prevout, mid, hprevout, h⟩ := reader_bind_eq_ok.mp h
    obtain ⟨scriptSig, mid', hscript, h⟩ := reader_bind_eq_ok.mp h
    obtain ⟨nSequence, mid'', hsequence, h⟩ := reader_bind_eq_ok.mp h
    obtain ⟨rfl, rfl⟩ := reader_pure_eq_ok.mp h
    obtain ⟨-, rfl⟩ := codec_outPoint.sound hprevout
    obtain ⟨hlength, rfl⟩ := codec_readBytes.sound hscript
    obtain ⟨-, rfl⟩ := codec_readUInt32.sound hsequence
    refine ⟨⟨hlength, rfl⟩, ?_⟩
    simp only [CTxIn.serialize, List.append_assoc]

theorem codec_txOut : Codec CTxOut.unserialize CTxOut.serialize fun txout =>
    txout.scriptPubKey.length ≤ maxSize where
  reads := by
    rintro ⟨nValue, scriptPubKey⟩ hlength
    exact (codec_readInt64.reads trivial).bind ((codec_readBytes.reads hlength).map _)
  sound := by
    intro input txout rest h
    obtain ⟨nValue, mid, hvalue, h⟩ := reader_bind_eq_ok.mp h
    obtain ⟨scriptPubKey, mid', hscript, h⟩ := reader_bind_eq_ok.mp h
    obtain ⟨rfl, rfl⟩ := reader_pure_eq_ok.mp h
    obtain ⟨-, rfl⟩ := codec_readInt64.sound hvalue
    obtain ⟨hlength, rfl⟩ := codec_readBytes.sound hscript
    refine ⟨hlength, ?_⟩
    rw [CTxOut.serialize, List.append_assoc]

/-- The transaction has no witnesses, and none of its vectors and scripts is longer than the
deserialization code accepts. -/
structure CTransaction.Transmissible (tx : CTransaction) : Prop where
  vin : tx.vin.length ≤ maxSize
  txin : ∀ txin ∈ tx.vin, txin.scriptSig.length ≤ maxSize ∧ txin.scriptWitness = []
  vout : tx.vout.length ≤ maxSize
  txout : ∀ txout ∈ tx.vout, txout.scriptPubKey.length ≤ maxSize

theorem codec_transaction :
    Codec unserializeTransaction CTransaction.serialize CTransaction.Transmissible where
  reads := by
    intro tx htx
    simp only [CTransaction.serialize, List.append_assoc]
    exact (codec_readInt32.reads trivial).bind ((codec_readUInt32.reads trivial).bind
      (((codec_readVector codec_txIn).reads ⟨htx.vin, htx.txin⟩).bind
        (((codec_readVector codec_txOut).reads ⟨htx.vout, htx.txout⟩).bind
          ((codec_readUInt32.reads trivial).map _))))
  sound := by
    intro input tx rest h
    obtain ⟨nVersion, mid, hversion, h⟩ := reader_bind_eq_ok.mp h
    obtain ⟨nTime, mid, htime, h⟩ := reader_bind_eq_ok.mp h
    obtain ⟨vin, mid, hvin, h⟩ := reader_bind_eq_ok.mp h
    obtain ⟨vout, mid, hvout, h⟩ := reader_bind_eq_ok.mp h
    obtain ⟨nLockTime, mid, hlock, h⟩ := reader_bind_eq_ok.mp h
    obtain ⟨rfl, rfl⟩ := reader_pure_eq_ok.mp h
    obtain ⟨-, rfl⟩ := codec_readInt32.sound hversion
    obtain ⟨-, rfl⟩ := codec_readUInt32.sound htime
    obtain ⟨⟨hvinLength, htxin⟩, rfl⟩ := (codec_readVector codec_txIn).sound hvin
    obtain ⟨⟨hvoutLength, htxout⟩, rfl⟩ := (codec_readVector codec_txOut).sound hvout
    obtain ⟨-, rfl⟩ := codec_readUInt32.sound hlock
    refine ⟨⟨hvinLength, htxin, hvoutLength, htxout⟩, ?_⟩
    simp only [CTransaction.serialize, List.append_assoc]

/-- What is written of a transaction is read back, and leaves what follows; what is read is what
would be written; so no transaction has two encodings. -/
theorem transaction_wireFormat :
    (∀ (tx : CTransaction) (r : Bytes), tx.Transmissible →
      unserializeTransaction (tx.serialize ++ r) = .ok (tx, r)) ∧
    (∀ (b r : Bytes) (tx : CTransaction), unserializeTransaction b = .ok (tx, r) →
      tx.serialize ++ r = b) ∧
    ∀ (b b' : Bytes) (tx : CTransaction), unserializeTransaction b = .ok (tx, []) →
      unserializeTransaction b' = .ok (tx, []) → b = b' := by
  have hsound : ∀ (b r : Bytes) (tx : CTransaction), unserializeTransaction b = .ok (tx, r) →
      tx.serialize ++ r = b :=
    fun b r tx h => (codec_transaction.sound h).2.symm
  refine ⟨fun tx r htx => codec_transaction.reads htx r, hsound, ?_⟩
  intro b b' tx h h'
  rw [← hsound b [] tx h, ← hsound b' [] tx h']

theorem sampleCoinbase_wireFormat :
    unserializeTransaction (sampleCoinbase.serialize ++ [7]) = .ok (sampleCoinbase, [7]) := by
  apply transaction_wireFormat.1
  constructor <;> decide

def CBlockHeader.unserialize : StreamReader CBlockHeader := do
  let nVersion ← readInt32
  let hashPrevBlock ← readUInt256
  let hashMerkleRoot ← readUInt256
  let nTime ← readUInt32
  let nBits ← readUInt32
  let nNonce ← readUInt32
  return ⟨nVersion, hashPrevBlock, hashMerkleRoot, nTime, nBits, nNonce⟩

/-- Into a new block, whose mark `SetNull` has cleared. -/
def CBlock.unserialize : StreamReader CBlock := do
  let header ← CBlockHeader.unserialize
  let vtx ← readVector unserializeTransaction
  let vchBlockSig ← readBytes
  return { header with vtx, vchBlockSig, fChecked := false }

theorem codec_header : Codec CBlockHeader.unserialize CBlockHeader.serialize fun _ => True where
  reads := by
    intro header _
    simp only [CBlockHeader.serialize, List.append_assoc]
    exact (codec_readInt32.reads trivial).bind ((codec_readUInt256.reads trivial).bind
      ((codec_readUInt256.reads trivial).bind ((codec_readUInt32.reads trivial).bind
        ((codec_readUInt32.reads trivial).bind ((codec_readUInt32.reads trivial).map _)))))
  sound := by
    intro input header rest h
    obtain ⟨nVersion, mid, hversion, h⟩ := reader_bind_eq_ok.mp h
    obtain ⟨hashPrevBlock, mid, hprev, h⟩ := reader_bind_eq_ok.mp h
    obtain ⟨hashMerkleRoot, mid, hroot, h⟩ := reader_bind_eq_ok.mp h
    obtain ⟨nTime, mid, htime, h⟩ := reader_bind_eq_ok.mp h
    obtain ⟨nBits, mid, hbits, h⟩ := reader_bind_eq_ok.mp h
    obtain ⟨nNonce, mid, hnonce, h⟩ := reader_bind_eq_ok.mp h
    obtain ⟨rfl, rfl⟩ := reader_pure_eq_ok.mp h
    obtain ⟨-, rfl⟩ := codec_readInt32.sound hversion
    obtain ⟨-, rfl⟩ := codec_readUInt256.sound hprev
    obtain ⟨-, rfl⟩ := codec_readUInt256.sound hroot
    obtain ⟨-, rfl⟩ := codec_readUInt32.sound htime
    obtain ⟨-, rfl⟩ := codec_readUInt32.sound hbits
    obtain ⟨-, rfl⟩ := codec_readUInt32.sound hnonce
    refine ⟨trivial, ?_⟩
    simp only [CBlockHeader.serialize, List.append_assoc]

/-- A block as it is read: not checked yet, and within the sizes that are accepted. -/
structure CBlock.Transmissible (block : CBlock) : Prop where
  vtx : block.vtx.length ≤ maxSize ∧ ∀ tx ∈ block.vtx, tx.Transmissible
  vchBlockSig : block.vchBlockSig.length ≤ maxSize
  fChecked : block.fChecked = false

theorem codec_block : Codec CBlock.unserialize CBlock.serialize CBlock.Transmissible where
  reads := by
    rintro ⟨header, vtx, vchBlockSig, fChecked⟩ ⟨hvtx, hsig, rfl⟩
    simp only [CBlock.serialize, List.append_assoc]
    exact (codec_header.reads trivial).bind (((codec_readVector codec_transaction).reads hvtx).bind
      ((codec_readBytes.reads hsig).map _))
  sound := by
    intro input block rest h
    obtain ⟨header, mid, hheader, h⟩ := reader_bind_eq_ok.mp h
    obtain ⟨vtx, mid, hvtx, h⟩ := reader_bind_eq_ok.mp h
    obtain ⟨vchBlockSig, mid, hsig, h⟩ := reader_bind_eq_ok.mp h
    obtain ⟨rfl, rfl⟩ := reader_pure_eq_ok.mp h
    obtain ⟨-, rfl⟩ := codec_header.sound hheader
    obtain ⟨htxs, rfl⟩ := (codec_readVector codec_transaction).sound hvtx
    obtain ⟨hlength, rfl⟩ := codec_readBytes.sound hsig
    refine ⟨⟨htxs, hlength, rfl⟩, ?_⟩
    simp only [CBlock.serialize, List.append_assoc]

/-- What is written of a block is read back, what is read is what would be written, and the hash of
a block that has been read is that of the first 80 bytes. -/
theorem block_wireFormat (crypto : Crypto) :
    (∀ (block : CBlock) (r : Bytes), block.Transmissible →
      CBlock.unserialize (block.serialize ++ r) = .ok (block, r)) ∧
    ∀ (b r : Bytes) (block : CBlock), CBlock.unserialize b = .ok (block, r) →
      block.serialize ++ r = b ∧ block.getHash crypto = crypto.hash (b.take 80) := by
  refine ⟨fun block r hblock => codec_block.reads hblock r, ?_⟩
  intro b r block h
  obtain ⟨-, rfl⟩ := codec_block.sound h
  refine ⟨rfl, ?_⟩
  rw [CBlock.serialize, List.append_assoc, List.append_assoc,
    List.take_left' block.toCBlockHeader.serialize_length]
  rfl

theorem sampleBlock_wireFormat :
    CBlock.unserialize ((sampleBlock [sampleCoinbase]).serialize ++ [7]) =
      .ok (sampleBlock [sampleCoinbase], [7]) := by
  apply (block_wireFormat sampleCrypto).1
  refine ⟨⟨by decide, fun tx htx => ?_⟩, by decide, rfl⟩
  cases List.mem_singleton.mp htx
  constructor <;> decide

end Verium
