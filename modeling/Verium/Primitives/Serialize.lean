import Verium.Lib.Bytes

/-!
Byte-level serialization shared by every message and disk record of the node, as
`serialize.h` writes it: fixed-width little-endian integers, compact sizes, and vectors
as a compact size followed by their elements.
-/

namespace Verium

open Lib

abbrev Bytes := List UInt8

abbrev CScript := Bytes

/-- `uint256`: 32 bytes, identified with the number they denote in little-endian order,
which is how `UintToArith256` and `CBigNum::setuint256` read them. -/
abbrev UInt256 := BitVec 256

instance instLawfulBEqUInt256 : LawfulBEq UInt256 :=
  inferInstance

/-- `CAmount`, a 64-bit signed number of base units. -/
abbrev CAmount := Int64

def serUInt32 (x : UInt32) : Bytes :=
  leBytes 4 x.toNat

def serUInt64 (x : UInt64) : Bytes :=
  leBytes 8 x.toNat

def serInt32 (x : Int32) : Bytes :=
  leBytes 4 x.toUInt32.toNat

def serInt64 (x : Int64) : Bytes :=
  leBytes 8 x.toUInt64.toNat

def serUInt256 (x : UInt256) : Bytes :=
  leBytes 32 x.toNat

def getUint64 (x : UInt256) (pos : Nat) : UInt64 :=
  UInt64.ofNat (x.toNat >>> (64 * pos))

def getSizeOfCompactSize (nSize : Nat) : Nat :=
  if nSize < 253 then 1
  else if nSize ≤ 0xffff then 3
  else if nSize ≤ 0xffffffff then 5
  else 9

def writeCompactSize (nSize : Nat) : Bytes :=
  if nSize < 253 then leBytes 1 nSize
  else if nSize ≤ 0xffff then 253 :: leBytes 2 nSize
  else if nSize ≤ 0xffffffff then 254 :: leBytes 4 nSize
  else 255 :: leBytes 8 nSize

/-- A vector is its compact size followed by its elements. -/
def serVector {α : Type*} (ser : α → Bytes) (v : List α) : Bytes :=
  writeCompactSize v.length ++ v.flatMap ser

/-- Scripts and byte vectors: the compact size, then the raw bytes. -/
def serBytes (b : Bytes) : Bytes :=
  writeCompactSize b.length ++ b

@[simp]
theorem serUInt32_length (x : UInt32) : (serUInt32 x).length = 4 :=
  leBytes_length _ _

@[simp]
theorem serInt32_length (x : Int32) : (serInt32 x).length = 4 :=
  leBytes_length _ _

@[simp]
theorem serInt64_length (x : Int64) : (serInt64 x).length = 8 :=
  leBytes_length _ _

@[simp]
theorem serUInt256_length (x : UInt256) : (serUInt256 x).length = 32 :=
  leBytes_length _ _

@[simp]
theorem writeCompactSize_length (nSize : Nat) :
    (writeCompactSize nSize).length = getSizeOfCompactSize nSize := by
  unfold writeCompactSize getSizeOfCompactSize
  split
  · simp
  · split
    · simp
    · split <;> simp

theorem getSizeOfCompactSize_mono {m n : Nat} (h : m ≤ n) :
    getSizeOfCompactSize m ≤ getSizeOfCompactSize n := by
  unfold getSizeOfCompactSize
  repeat' split
  all_goals omega

@[simp]
theorem serBytes_length (b : Bytes) :
    (serBytes b).length = getSizeOfCompactSize b.length + b.length := by
  simp [serBytes]

theorem serVector_length {α : Type*} (ser : α → Bytes) (v : List α) :
    (serVector ser v).length =
      getSizeOfCompactSize v.length + (v.map fun x => (ser x).length).sum := by
  simp [serVector, List.length_flatMap]

theorem serVector_length_ge {α : Type*} (ser : α → Bytes) (w : Nat) (v : List α)
    (hw : ∀ x ∈ v, w ≤ (ser x).length) : v.length * w ≤ (serVector ser v).length := by
  have hsum : v.length * w ≤ (v.map fun x => (ser x).length).sum := by
    have := List.card_nsmul_le_sum (v.map fun x => (ser x).length) w (by simpa using hw)
    simpa using this
  rw [serVector_length]
  omega

end Verium
