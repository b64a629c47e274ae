import Verium.Primitives.Transaction

/-!
Block headers and blocks, and the Merkle root over the transaction hashes.
-/

namespace Verium

open Lib

structure CBlockHeader where
  nVersion : Int32
  hashPrevBlock : UInt256
  hashMerkleRoot : UInt256
  nTime : UInt32
  nBits : UInt32
  nNonce : UInt32
deriving DecidableEq, Repr

namespace CBlockHeader

/-- The header a default-constructed `CBlockHeader` holds (`SetNull`). -/
def null : CBlockHeader := ⟨7, 0, 0, 0, 0, 0⟩

def isNull (header : CBlockHeader) : Bool :=
  header.nBits = 0

def serialize (header : CBlockHeader) : Bytes :=
  serInt32 header.nVersion ++ serUInt256 header.hashPrevBlock ++
    serUInt256 header.hashMerkleRoot ++ serUInt32 header.nTime ++
    serUInt32 header.nBits ++ serUInt32 header.nNonce

theorem serialize_length (header : CBlockHeader) : header.serialize.length = 80 := by
  simp [serialize]

def getHash (crypto : Crypto) (header : CBlockHeader) : UInt256 :=
  crypto.hash header.serialize

end CBlockHeader

structure CBlock extends CBlockHeader where
  vtx : List CTransaction
  vchBlockSig : Bytes
  /-- Memory only: set once `CheckBlock` has passed with both of its flags. -/
  fChecked : Bool
deriving DecidableEq, Repr

namespace CBlock

def getBlockHeader (block : CBlock) : CBlockHeader :=
  block.toCBlockHeader

def serialize (block : CBlock) : Bytes :=
  block.toCBlockHeader.serialize ++ serVector CTransaction.serialize block.vtx ++
    serBytes block.vchBlockSig

def getHash (crypto : Crypto) (block : CBlock) : UInt256 :=
  block.toCBlockHeader.getHash crypto

end CBlock

/-- Two equal hashes at an even position and its successor, the sign of a duplicated
subtree. -/
def merkleMutation : List UInt256 → Bool
  | a :: b :: rest => a = b || merkleMutation rest
  | _ => false

/-- One level of the tree: neighbours are hashed together, an odd last one with itself. -/
def merkleLevel (hash : Bytes → UInt256) : List UInt256 → List UInt256
  | a :: b :: rest =>
      hash (serUInt256 a ++ serUInt256 b) :: merkleLevel hash rest
  | [a] => [hash (serUInt256 a ++ serUInt256 a)]
  | [] => []

/-- The loop of `ComputeMerkleRoot`, with the number of levels still allowed. -/
def computeMerkleRootLoop (hash : Bytes → UInt256) :
    Nat → List UInt256 → Bool → UInt256 × Bool
  | _, [], mutation => (0, mutation)
  | _, [root], mutation => (root, mutation)
  | 0, root :: _, mutation => (root, mutation)
  | fuel + 1, hashes, mutation =>
      computeMerkleRootLoop hash fuel (merkleLevel hash hashes)
        (mutation || merkleMutation hashes)

/-- `ComputeMerkleRoot(hashes, &mutated)`. Each level halves the list, so as many levels
as there are hashes are more than enough. -/
def computeMerkleRoot (hash : Bytes → UInt256) (hashes : List UInt256) : UInt256 × Bool :=
  computeMerkleRootLoop hash hashes.length hashes false

def blockMerkleRoot (crypto : Crypto) (vtx : List CTransaction) : UInt256 × Bool :=
  computeMerkleRoot crypto.hash (vtx.map (CTransaction.getHash crypto))

theorem merkleLevel_length (hash : Bytes → UInt256) (hashes : List UInt256) :
    (merkleLevel hash hashes).length = (hashes.length + 1) / 2 := by
  induction hashes using merkleLevel.induct with
  | case1 a b rest ih =>
      simp only [merkleLevel, List.length_cons, ih]
      omega
  | case2 a => simp [merkleLevel]
  | case3 => simp [merkleLevel]

/-- A coinbase that pays ten coins to anyone. -/
def sampleCoinbase : CTransaction :=
  ⟨1, 100, [⟨COutPoint.null, [1, 1], 0xffffffff, []⟩], [⟨1000000000, [0x51]⟩], 0⟩

/-- A block with the given transactions, on top of the entry with hash 77. -/
def sampleBlock (vtx : List CTransaction) : CBlock where
  nVersion := 7
  hashPrevBlock := 77
  hashMerkleRoot := (blockMerkleRoot sampleCrypto vtx).1
  nTime := 100
  nBits := 0x1f1fffff
  nNonce := 0
  vtx
  vchBlockSig := []
  fChecked := false

end Verium
