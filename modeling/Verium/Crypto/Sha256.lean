import Verium.Lib.Iteration
import Verium.Lib.Bytes

/-!
`CSHA256` (`sha256.cpp`) over any compression function: `Transform` compresses the blocks it is
given one after the other. However a message is divided over calls of `Write`, `Finalize` gives
the iteration over the padded message.
-/

namespace Verium

open Lib

/-- The eight words of the state. -/
abbrev Sha256State := Fin 8 → UInt32

structure CSHA256 where
  s : Sha256State
  buf : List UInt8
  /-- A `uint64_t`. -/
  bytes : Nat

namespace CSHA256

/-- `WriteBE32` and `WriteBE64`, by their width. -/
def writeBE (width value : Nat) : List UInt8 :=
  (leBytes width value).reverse

section Code

variable (compress : Sha256State → List UInt8 → Sha256State) (init : Sha256State)

def transform (s : Sha256State) (chunk : List UInt8) (blocks : Nat) : Sha256State :=
  absorb compress 64 blocks s chunk

/-- A new hasher, with whatever is in its buffer. -/
def new (buf : Fin 64 → UInt8) : CSHA256 :=
  ⟨init, List.ofFn buf, 0⟩

/-- `memcpy(buf + pos, data, len)` -/
def copyTo (buf : List UInt8) (pos : Nat) (data : List UInt8) : List UInt8 :=
  buf.take pos ++ (data ++ buf.drop (pos + data.length))

/-- The first step of `Write` completes and processes a block that was begun. Returns the data
that is left and `bufsize` too. -/
def fillBuffer (h : CSHA256) (data : List UInt8) : CSHA256 × List UInt8 × Nat :=
  let bufsize := h.bytes % 64
  if bufsize ≠ 0 ∧ 64 ≤ bufsize + data.length then
    let buf := copyTo h.buf bufsize (data.take (64 - bufsize))
    (⟨transform compress h.s buf 1, buf, (h.bytes + (64 - bufsize)) % 2 ^ 64⟩,
      data.drop (64 - bufsize), 0)
  else (h, data, bufsize)

/-- The second step processes the whole blocks of the data. -/
def takeBlocks (h : CSHA256) (data : List UInt8) : CSHA256 × List UInt8 :=
  if 64 ≤ data.length then
    let blocks := data.length / 64
    ({ h with
        s := transform compress h.s data blocks
        bytes := (h.bytes + 64 * blocks) % 2 ^ 64 }, data.drop (64 * blocks))
  else (h, data)

def write (h : CSHA256) (data : List UInt8) : CSHA256 :=
  let (h, data, bufsize) := fillBuffer compress h data
  let (h, data) := takeBlocks compress h data
  if data = [] then h
  else { h with
    buf := copyTo h.buf bufsize data
    bytes := (h.bytes + data.length) % 2 ^ 64 }

def finalize (h : CSHA256) : List UInt8 :=
  let pad : List UInt8 := 0x80 :: List.replicate 63 0
  let sizedesc := writeBE 8 (h.bytes <<< 3 % 2 ^ 64)
  let h := write compress h (pad.take (1 + (119 - h.bytes % 64) % 64))
  let h := write compress h sizedesc
  (List.ofFn h.s).flatMap fun word => writeBE 4 word.toNat

end Code

/-- The message with `0x80`, zeros and its length in bits, to a multiple of 64 bytes. -/
def Padded (message padded : List UInt8) : Prop :=
  ∃ zeros < 64, padded = message ++ 0x80 :: List.replicate zeros 0 ++
    writeBE 8 (8 * message.length) ∧ padded.length % 64 = 0

section Spec

variable {compress : Sha256State → List UInt8 → Sha256State} {init : Sha256State} {h : CSHA256}
  {message data : List UInt8}

/-- The hasher has read the message: its whole blocks are processed and the rest is in the
buffer. -/
structure HasRead (compress : Sha256State → List UInt8 → Sha256State) (init : Sha256State)
    (h : CSHA256) (message : List UInt8) : Prop where
  s : h.s = absorb compress 64 (message.length / 64) init message
  bytes : h.bytes = message.length % 2 ^ 64
  length : h.buf.length = 64
  buf : h.buf.take (message.length % 64) = message.drop (message.length / 64 * 64)

theorem hasRead_new (buf : Fin 64 → UInt8) : HasRead compress init (new init buf) [] :=
  ⟨rfl, rfl, List.length_ofFn, rfl⟩

theorem HasRead.bytes_mod (hh : HasRead compress init h message) :
    h.bytes % 64 = message.length % 64 := by
  rw [hh.bytes]
  omega

/-- Whole blocks are processed, of what the buffer held and new data. -/
theorem HasRead.blocks (hh : HasRead compress init h message) (n : Nat) (data buf : List UInt8)
    (hlength : message.length % 64 + data.length = n * 64) (hbuf : buf.length = 64) :
    HasRead compress init ⟨absorb compress 64 n h.s (h.buf.take (message.length % 64) ++ data), buf,
      (h.bytes + data.length) % 2 ^ 64⟩ (message ++ data) := by
  have hblocks : (message ++ data).length / 64 = message.length / 64 + n := by
    rw [List.length_append]
    omega
  have hend : (message ++ data).length = (message.length / 64 + n) * 64 := by
    rw [List.length_append]
    omega
  refine ⟨?_, ?_, hbuf, ?_⟩
  · rw [hblocks, absorb_add_append (by omega), hh.s, hh.buf]
  · dsimp only
    rw [hh.bytes, List.length_append]
    omega
  · rw [hblocks, ← hend, List.drop_length, hend, Nat.mul_mod_left, List.take_zero]

theorem HasRead.fillBuffer (hh : HasRead compress init h message) (data : List UInt8) :
    ∃ h' message' data', fillBuffer compress h data = (h', data', message'.length % 64) ∧
      HasRead compress init h' message' ∧ message' ++ data' = message ++ data ∧
      (message'.length % 64 = 0 ∨ message'.length % 64 + data'.length < 64) := by
  unfold CSHA256.fillBuffer
  rw [hh.bytes_mod]
  dsimp only
  split
  · next hfull =>
    have htake : (data.take (64 - message.length % 64)).length = 64 - message.length % 64 := by
      rw [List.length_take]
      omega
    have hcopy : copyTo h.buf (message.length % 64) (data.take (64 - message.length % 64)) =
        h.buf.take (message.length % 64) ++ data.take (64 - message.length % 64) := by
      rw [copyTo, htake, List.drop_of_length_le (by rw [hh.length]; omega), List.append_nil]
    have hzero : (message ++ data.take (64 - message.length % 64)).length % 64 = 0 := by
      rw [List.length_append, htake]
      omega
    have hread := hh.blocks 1 (data.take (64 - message.length % 64))
      (h.buf.take (message.length % 64) ++ data.take (64 - message.length % 64))
      (by rw [htake]; omega)
      (by rw [List.length_append, List.length_take, hh.length, htake]; omega)
    rw [htake] at hread
    refine ⟨_, message ++ data.take (64 - message.length % 64),
      data.drop (64 - message.length % 64), ?_, hread, ?_, .inl hzero⟩
    · rw [hcopy, hzero]
      rfl
    · rw [List.append_assoc, List.take_append_drop]
  · next hpart =>
    exact ⟨h, message, data, rfl, hh, rfl, by omega⟩

theorem HasRead.takeBlocks (hh : HasRead compress init h message)
    (hpart : message.length % 64 = 0 ∨ message.length % 64 + data.length < 64) :
    ∃ h' message' data', takeBlocks compress h data = (h', data') ∧
      HasRead compress init h' message' ∧ message' ++ data' = message ++ data ∧
      message'.length % 64 = message.length % 64 ∧ message'.length % 64 + data'.length < 64 := by
  unfold CSHA256.takeBlocks
  split
  · next hlong =>
    have hzero : message.length % 64 = 0 := by omega
    have htake : (data.take (64 * (data.length / 64))).length = 64 * (data.length / 64) := by
      rw [List.length_take]
      omega
    have hread := hh.blocks (data.length / 64) (data.take (64 * (data.length / 64))) h.buf
      (by rw [htake]; omega) hh.length
    have habsorb : absorb compress 64 (data.length / 64) h.s
        (data.take (64 * (data.length / 64))) = transform compress h.s data (data.length / 64) := by
      rw [transform, ← absorb_append (r := data.drop (64 * (data.length / 64)))
        (by rw [htake]; omega), List.take_append_drop]
    rw [hzero, List.take_zero, List.nil_append, htake, habsorb] at hread
    refine ⟨_, message ++ data.take (64 * (data.length / 64)), _, rfl, hread, ?_, ?_, ?_⟩
    · rw [List.append_assoc, List.take_append_drop]
    · rw [List.length_append, htake]
      omega
    · rw [List.length_append, htake, List.length_drop]
      omega
  · next hshort =>
    exact ⟨h, message, data, rfl, hh, rfl, rfl, by omega⟩

theorem HasRead.write (hh : HasRead compress init h message) (data : List UInt8) :
    HasRead compress init (write compress h data) (message ++ data) := by
  obtain ⟨h₁, message₁, data₁, hfill, hread₁, hall₁, hpart⟩ := hh.fillBuffer data
  obtain ⟨h₂, message₂, data₂, htake, hread₂, hall₂, hsame, hroom⟩ := hread₁.takeBlocks hpart
  rw [CSHA256.write, hfill]
  dsimp only
  rw [htake, ← hall₁, ← hall₂]
  dsimp only
  split
  · next hempty =>
    rw [hempty, List.append_nil]
    exact hread₂
  · rw [← hsame]
    have hquot : (message₂ ++ data₂).length / 64 = message₂.length / 64 := by
      rw [List.length_append]
      omega
    have hrem : (message₂ ++ data₂).length % 64 = message₂.length % 64 + data₂.length := by
      rw [List.length_append]
      omega
    have hkept : (h₂.buf.take (message₂.length % 64)).length = message₂.length % 64 := by
      rw [List.length_take, hread₂.length]
      omega
    refine ⟨?_, ?_, ?_, ?_⟩
    · rw [hquot, absorb_append (by omega)]
      exact hread₂.s
    · dsimp only
      rw [hread₂.bytes, List.length_append]
      omega
    · simp only [copyTo, List.length_append, hkept, List.length_drop, hread₂.length]
      omega
    · dsimp only [copyTo]
      rw [hrem, hquot, ← List.append_assoc, List.take_append_of_le_length
        (by rw [List.length_append, hkept]), List.take_of_length_le
        (by rw [List.length_append, hkept]), hread₂.buf, List.drop_append_of_le_length (by omega)]

theorem HasRead.writes (hh : HasRead compress init h message) (chunks : List (List UInt8)) :
    HasRead compress init (chunks.foldl (CSHA256.write compress) h)
      (message ++ chunks.flatten) := by
  induction chunks generalizing h message with
  | nil => simpa using hh
  | cons chunk chunks ih =>
    rw [List.foldl_cons, List.flatten_cons, ← List.append_assoc]
    exact ih (hh.write chunk)

end Spec

/-- For every message below `2 ^ 61` bytes and every way of dividing it, the hash is the iteration
of the compression function over the padded message. -/
theorem finalize_writes (compress : Sha256State → List UInt8 → Sha256State) (init : Sha256State)
    (buf : Fin 64 → UInt8) (chunks : List (List UInt8)) (hlength : chunks.flatten.length < 2 ^ 61) :
    ∃ padded, Padded chunks.flatten padded ∧
      finalize compress (chunks.foldl (write compress) (new init buf)) =
        (List.ofFn (absorb compress 64 (padded.length / 64) init padded)).flatMap
          fun word => writeBE 4 word.toNat := by
  have hread : HasRead compress init (chunks.foldl (write compress) (new init buf))
      chunks.flatten := (hasRead_new buf).writes chunks
  generalize chunks.flatten = message at hlength hread ⊢
  generalize chunks.foldl (write compress) (new init buf) = h at hread ⊢
  have hbytes : h.bytes = message.length := by
    rw [hread.bytes, Nat.mod_eq_of_lt (by omega)]
  have hbits : h.bytes <<< 3 % 2 ^ 64 = 8 * message.length := by
    rw [hbytes, Nat.shiftLeft_eq, Nat.mod_eq_of_lt (by omega)]
    omega
  have hpad : ((0x80 : UInt8) :: List.replicate 63 0).take (1 + (119 - h.bytes % 64) % 64) =
      0x80 :: List.replicate ((119 - message.length % 64) % 64) 0 := by
    rw [hbytes, Nat.add_comm 1, List.take_succ_cons, List.take_replicate,
      Nat.min_eq_left (by omega)]
  have hfinal := (hread.write (0x80 :: List.replicate ((119 - message.length % 64) % 64) 0)).write
    (writeBE 8 (8 * message.length))
  refine ⟨_, ⟨(119 - message.length % 64) % 64, by omega, rfl, ?_⟩, ?_⟩
  · simp only [List.length_append, List.length_cons, List.length_replicate, writeBE,
      List.length_reverse, leBytes_length]
    omega
  · rw [finalize, hbits, hpad, hfinal.s]

/-- A compression function that adds the bytes of a block to every word. -/
def addBytes (s : Sha256State) (chunk : List UInt8) : Sha256State :=
  fun i => s i + chunk.foldl (fun sum byte => sum + byte.toUInt32) 0

/-- A message in three parts, one of them empty. -/
theorem finalize_writes_parts : ∃ padded, Padded [1, 2, 3] padded ∧
    finalize addBytes ([[1], [], [2, 3]].foldl (write addBytes) (new (fun _ => 0) fun _ => 0)) =
      (List.ofFn (absorb addBytes 64 (padded.length / 64) (fun _ => 0) padded)).flatMap
        fun word => writeBE 4 word.toNat :=
  finalize_writes addBytes (fun _ => 0) (fun _ => 0) [[1], [], [2, 3]] (by decide)

end CSHA256

end Verium
