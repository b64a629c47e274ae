import Verium.Lib.Lanes
import Verium.Primitives.Serialize

/-!
`crypto/scrypt.cpp`: the proof-of-work hash of the validator, and the search of the miner, which
hashes several headers at once. The block function of SHA-256, the core of scrypt and their
versions for several lanes are machine code; everything around them is modelled on buffers of 32-bit
words, as they lie in memory. The wide SHA-256 works on interleaved lanes and the wide core on
contiguous ones, so the words are moved between the two layouts.
-/

namespace Verium

open Lib

/-- `sha256_h`, which `sha256_init` copies. -/
def sha256H : Vector UInt32 8 :=
  #v[0x6a09e667, 0xbb67ae85, 0x3c6ef372, 0xa54ff53a, 0x510e527f, 0x9b05688c, 0x1f83d9ab, 0x5be0cd19]

def keypad : Vector UInt32 12 :=
  #v[0x80000000, 0, 0, 0, 0, 0, 0, 0, 0, 0, 0, 0x00000280]

def innerpad : Vector UInt32 11 :=
  #v[0x80000000, 0, 0, 0, 0, 0, 0, 0, 0, 0, 0x000004a0]

def outerpad : Vector UInt32 8 :=
  #v[0x80000000, 0, 0, 0, 0, 0, 0, 0x00000300]

def finalblk : Vector UInt32 16 :=
  #v[0x00000001, 0x80000000, 0, 0, 0, 0, 0, 0, 0, 0, 0, 0, 0, 0, 0, 0x00000620]

def swab32 (x : UInt32) : UInt32 :=
  ((x &&& 0xff000000) >>> 24) ||| ((x &&& 0x00ff0000) >>> 8) |||
    ((x &&& 0x0000ff00) <<< 8) ||| ((x &&& 0x000000ff) <<< 24)

/-- The machine code. Each function is given what it reads and returns what it leaves in its first
argument; the scratch memory and the cost parameter `N` of the cores are fixed. -/
structure ScryptRoutines where
  sha256Transform : Vector UInt32 8 → Vector UInt32 16 → (swap : Bool) → Vector UInt32 8
  scryptCore : Vector UInt32 32 → Vector UInt32 32
  sha256Transform4way :
    Vector UInt32 (4 * 8) → Vector UInt32 (4 * 16) → (swap : Bool) → Vector UInt32 (4 * 8)
  sha256Transform8way :
    Vector UInt32 (8 * 8) → Vector UInt32 (8 * 16) → (swap : Bool) → Vector UInt32 (8 * 8)
  scryptCore3way : Vector UInt32 (3 * 32) → Vector UInt32 (3 * 32)
  scryptCore6way : Vector UInt32 (6 * 32) → Vector UInt32 (6 * 32)

section OneLane

variable (r : ScryptRoutines)

/-- `HMAC_SHA256_80_init`: `tstate` and `ostate`, from the midstate of the key. -/
def hmacSha256_80_init (key : Vector UInt32 20) (tstate : Vector UInt32 8) :
    Vector UInt32 8 × Vector UInt32 8 :=
  let ihash := r.sha256Transform tstate (slice key 16 4 (by decide) ++ keypad) false
  let ostate := r.sha256Transform sha256H
    (ihash.map (· ^^^ 0x5c5c5c5c) ++ Vector.replicate 8 (0x5c5c5c5c : UInt32)) false
  let tstate := r.sha256Transform sha256H
    (ihash.map (· ^^^ 0x36363636) ++ Vector.replicate 8 (0x36363636 : UInt32)) false
  (tstate, ostate)

/-- `PBKDF2_SHA256_80_128`. The salt is read before the output is written, so the two may be the
same buffer. -/
def pbkdf2Sha256_80_128 (tstate ostate : Vector UInt32 8) (salt : Vector UInt32 20) :
    Vector UInt32 32 :=
  let istate := r.sha256Transform tstate (slice salt 0 16 (by decide)) false
  let output (i : UInt32) : Vector UInt32 8 :=
    let ibuf := slice salt 16 4 (by decide) ++ Vector.replicate 1 (i + 1) ++ innerpad
    let obuf := r.sha256Transform istate ibuf false ++ outerpad
    (r.sha256Transform ostate obuf false).map swab32
  output 0 ++ output 1 ++ output 2 ++ output 3

def pbkdf2Sha256_128_32 (tstate ostate : Vector UInt32 8) (salt : Vector UInt32 32) :
    Vector UInt32 8 :=
  let tstate := r.sha256Transform tstate (slice salt 0 16 (by decide)) true
  let tstate := r.sha256Transform tstate (slice salt 16 16 (by decide)) true
  let tstate := r.sha256Transform tstate finalblk false
  (r.sha256Transform ostate (tstate ++ outerpad) false).map swab32

def scryptN_1_1_256 (input : Vector UInt32 20) (midstate : Vector UInt32 8) : Vector UInt32 8 :=
  let (tstate, ostate) := hmacSha256_80_init r input midstate
  let X := pbkdf2Sha256_80_128 r tstate ostate input
  pbkdf2Sha256_128_32 r tstate ostate (r.scryptCore X)

end OneLane

section Ways

/-- SHA-256 on `w` interleaved lanes: the block function, `sha256_init` and the tables. -/
structure Sha256Ways (w : Nat) where
  init : Vector UInt32 (w * 8)
  transform : Vector UInt32 (w * 8) → Vector UInt32 (w * 16) → (swap : Bool) → Vector UInt32 (w * 8)
  keypad : Vector UInt32 (w * 12)
  innerpad : Vector UInt32 (w * 11)
  outerpad : Vector UInt32 (w * 8)
  finalblk : Vector UInt32 (w * 16)

variable (r : ScryptRoutines)

/-- `keypad_4way` and the other tables have every word four times, as `sha256_4h` has. -/
def sha256Ways4 : Sha256Ways 4 where
  init := spread 4 sha256H
  transform := r.sha256Transform4way
  keypad := spread 4 keypad
  innerpad := spread 4 innerpad
  outerpad := spread 4 outerpad
  finalblk := spread 4 finalblk

/-- For eight lanes the pads are filled in place. -/
def sha256Ways8 : Sha256Ways 8 where
  init := spread 8 sha256H
  transform := r.sha256Transform8way
  keypad := appendLanes (appendLanes (Vector.replicate (8 * 1) 0x80000000)
    (Vector.replicate (8 * 10) 0)) (Vector.replicate (8 * 1) 0x00000280)
  innerpad := appendLanes (appendLanes (Vector.replicate (8 * 1) 0x80000000)
    (Vector.replicate (8 * 9) 0)) (Vector.replicate (8 * 1) 0x000004a0)
  outerpad := appendLanes (appendLanes (Vector.replicate (8 * 1) 0x80000000)
    (Vector.replicate (8 * 6) 0)) (Vector.replicate (8 * 1) 0x00000300)
  finalblk := spread 8 finalblk

variable {w : Nat} (s : Sha256Ways w)

def hmacSha256_80_initWays (key : Vector UInt32 (w * 20)) (tstate : Vector UInt32 (w * 8)) :
    Vector UInt32 (w * 8) × Vector UInt32 (w * 8) :=
  let ihash := s.transform tstate
    (appendLanes (slice key (w * 16) (w * 4) (by omega)) s.keypad) false
  let ostate := s.transform s.init
    (appendLanes (ihash.map (· ^^^ 0x5c5c5c5c)) (Vector.replicate (w * 8) 0x5c5c5c5c)) false
  let tstate := s.transform s.init
    (appendLanes (ihash.map (· ^^^ 0x36363636)) (Vector.replicate (w * 8) 0x36363636)) false
  (tstate, ostate)

def pbkdf2Sha256_80_128Ways (tstate ostate : Vector UInt32 (w * 8))
    (salt : Vector UInt32 (w * 20)) : Vector UInt32 (w * 32) :=
  let istate := s.transform tstate (slice salt (w * 0) (w * 16) (by omega)) false
  let output (i : UInt32) : Vector UInt32 (w * 8) :=
    let ibuf := appendLanes (appendLanes (slice salt (w * 16) (w * 4) (by omega))
      (Vector.replicate (w * 1) (i + 1))) s.innerpad
    let obuf := appendLanes (s.transform istate ibuf false) s.outerpad
    (s.transform ostate obuf false).map swab32
  appendLanes (appendLanes (appendLanes (output 0) (output 1)) (output 2)) (output 3)

def pbkdf2Sha256_128_32Ways (tstate ostate : Vector UInt32 (w * 8))
    (salt : Vector UInt32 (w * 32)) : Vector UInt32 (w * 8) :=
  let tstate := s.transform tstate (slice salt (w * 0) (w * 16) (by omega)) true
  let tstate := s.transform tstate (slice salt (w * 16) (w * 16) (by omega)) true
  let tstate := s.transform tstate s.finalblk false
  (s.transform ostate (appendLanes tstate s.outerpad) false).map swab32

def hmacSha256_80_init_4way := hmacSha256_80_initWays (sha256Ways4 r)
def pbkdf2Sha256_80_128_4way := pbkdf2Sha256_80_128Ways (sha256Ways4 r)
def pbkdf2Sha256_128_32_4way := pbkdf2Sha256_128_32Ways (sha256Ways4 r)
def hmacSha256_80_init_8way := hmacSha256_80_initWays (sha256Ways8 r)
def pbkdf2Sha256_80_128_8way := pbkdf2Sha256_80_128Ways (sha256Ways8 r)
def pbkdf2Sha256_128_32_8way := pbkdf2Sha256_128_32Ways (sha256Ways8 r)

end Ways

section Layouts

/-- `scrypt_N_1_1_256_3way`: three lanes by the code for one, and a core for three. -/
def scryptN_1_1_256_3way (r : ScryptRoutines) (input : Vector UInt32 (3 * 20))
    (midstate : Vector UInt32 8) : Vector UInt32 (3 * 8) :=
  let salts := Vector.ofFn fun k : Fin 3 => slice input (k * 20) 20 (row_le k.isLt)
  let states := salts.map fun salt => hmacSha256_80_init r salt midstate
  let X := (Vector.ofFn fun k : Fin 3 =>
    pbkdf2Sha256_80_128 r states[k].1 states[k].2 salts[k]).flatten
  let X := r.scryptCore3way X
  (Vector.ofFn fun k : Fin 3 =>
    pbkdf2Sha256_128_32 r states[k].1 states[k].2 (slice X (k * 32) 32 (row_le k.isLt))).flatten

section Groups

variable {w c groups : Nat}

/-- Interleave the headers of each group. -/
def weaveGroups (input : Vector UInt32 (groups * (w * 20))) :
    Vector (Vector UInt32 (w * 20)) groups :=
  .ofFn fun j => weave (slice input (j * (w * 20)) (w * 20) (row_le j.isLt))

/-- The blocks that go into the core, as contiguous lanes. -/
def expandGroups
    (expand : Vector UInt32 (w * 8) → Vector UInt32 (w * 8) → Vector UInt32 (w * 20) →
      Vector UInt32 (w * 32))
    (states : Vector (Vector UInt32 (w * 8) × Vector UInt32 (w * 8)) groups)
    (W : Vector (Vector UInt32 (w * 20)) groups) : Vector UInt32 (groups * (w * 32)) :=
  (Vector.ofFn fun j : Fin groups => unweave (expand states[j].1 states[j].2 W[j])).flatten

/-- Calls of a core for `c` lanes on one part of the buffer after the other. -/
def coreCalls {calls : Nat} (core : Vector UInt32 (c * 32) → Vector UInt32 (c * 32))
    (X : Vector UInt32 (calls * (c * 32))) : Vector UInt32 (calls * (c * 32)) :=
  (Vector.ofFn fun i : Fin calls => core (slice X (i * (c * 32)) (c * 32) (row_le i.isLt))).flatten

/-- The hashes, as contiguous lanes. -/
def extractGroups
    (extract : Vector UInt32 (w * 8) → Vector UInt32 (w * 8) → Vector UInt32 (w * 32) →
      Vector UInt32 (w * 8))
    (states : Vector (Vector UInt32 (w * 8) × Vector UInt32 (w * 8)) groups)
    (X : Vector UInt32 (groups * (w * 32))) : Vector UInt32 (groups * (w * 8)) :=
  (Vector.ofFn fun j : Fin groups => unweave (extract states[j].1 states[j].2
    (weave (slice X (j * (w * 32)) (w * 32) (row_le j.isLt))))).flatten

theorem lanes_size {calls : Nat} (h : groups * w = calls * c) (n : Nat) :
    groups * (w * n) = calls * (c * n) := by
  rw [← Nat.mul_assoc, h, Nat.mul_assoc]

/-- `groups` groups of `w` lanes, with `calls` calls of a core for `c` lanes. The words are
interleaved within each group for SHA-256, and contiguous for the core. -/
def scryptGroups
    (init : Vector UInt32 (w * 20) → Vector UInt32 (w * 8) →
      Vector UInt32 (w * 8) × Vector UInt32 (w * 8))
    (expand : Vector UInt32 (w * 8) → Vector UInt32 (w * 8) → Vector UInt32 (w * 20) →
      Vector UInt32 (w * 32)) (core : Vector UInt32 (c * 32) → Vector UInt32 (c * 32))
    (extract : Vector UInt32 (w * 8) → Vector UInt32 (w * 8) → Vector UInt32 (w * 32) →
      Vector UInt32 (w * 8)) (calls : Nat) (h : groups * w = calls * c)
    (input : Vector UInt32 (groups * (w * 20))) (midstate : Vector UInt32 8) :
    Vector UInt32 (groups * (w * 8)) :=
  let W := weaveGroups input
  let states := W.map fun key => init key (spread w midstate)
  let X := expandGroups expand states W
  let X := coreCalls core (X.cast (lanes_size h 32))
  extractGroups extract states (X.cast (lanes_size h 32).symm)

end Groups

variable (r : ScryptRoutines)

def scryptN_1_1_256_4way :
    Vector UInt32 (1 * (4 * 20)) → Vector UInt32 8 → Vector UInt32 (1 * (4 * 8)) :=
  scryptGroups (hmacSha256_80_init_4way r) (pbkdf2Sha256_80_128_4way r) (c := 1) r.scryptCore
    (pbkdf2Sha256_128_32_4way r) 4 rfl

def scryptN_1_1_256_12way :
    Vector UInt32 (3 * (4 * 20)) → Vector UInt32 8 → Vector UInt32 (3 * (4 * 8)) :=
  scryptGroups (hmacSha256_80_init_4way r) (pbkdf2Sha256_80_128_4way r) r.scryptCore3way
    (pbkdf2Sha256_128_32_4way r) 4 rfl

def scryptN_1_1_256_24way :
    Vector UInt32 (3 * (8 * 20)) → Vector UInt32 8 → Vector UInt32 (3 * (8 * 8)) :=
  scryptGroups (hmacSha256_80_init_8way r) (pbkdf2Sha256_80_128_8way r) r.scryptCore6way
    (pbkdf2Sha256_128_32_8way r) 4 rfl

end Layouts

section Multi

/-- The numbers of lanes that the builds for the different processors have code for. -/
inductive Throughput where
  | one
  | three
  | four
  | twelve
  | twentyFour
deriving DecidableEq, Repr

def Throughput.lanes : Throughput → Nat
  | .one => 1
  | .three => 3
  | .four => 4
  | .twelve => 12
  | .twentyFour => 24

def be32enc (x : UInt32) : Vector UInt8 4 :=
  #v[(x >>> 24 &&& 0xff).toUInt8, (x >>> 16 &&& 0xff).toUInt8, (x >>> 8 &&& 0xff).toUInt8,
    (x &&& 0xff).toUInt8]

def be32dec (p : Vector UInt8 4) : UInt32 :=
  p[3].toUInt32 + (p[2].toUInt32 <<< 8) + (p[1].toUInt32 <<< 16) + (p[0].toUInt32 <<< 24)

/-- The header as 32-bit words, `data` of `scryptHash` and `pdata` of the search. -/
def headerWords (input : Vector UInt8 80) : Vector UInt32 20 :=
  .ofFn fun i => be32dec (slice input (i * 4) 4 (by omega))

/-- `sha256_init` and `sha256_transform` on the first words. -/
def headerMidstate (r : ScryptRoutines) (data : Vector UInt32 20) : Vector UInt32 8 :=
  r.sha256Transform sha256H (slice data 0 16 (by decide)) false

/-- The value of the `n` lowest words of a number in the memory of a little-endian machine. -/
def wordsNat (v : Vector UInt32 8) : (n : Nat) → n ≤ 8 → Nat
  | 0, _ => 0
  | n + 1, h => wordsNat v n (by omega) + v[n].toNat * 2 ^ (32 * n)

/-- The 256-bit number that eight words hold. -/
def uint256OfWords (v : Vector UInt32 8) : UInt256 :=
  BitVec.ofNat 256 (wordsNat v 8 le_rfl)

def uint256Words (x : UInt256) : Vector UInt32 8 :=
  .ofFn fun i => UInt32.ofNat (x.toNat / 2 ^ (32 * i.val))

/-- The loop of `fulltest` over the words below `n`, from the highest. -/
def fulltestBelow (hash target : Vector UInt32 8) : (n : Nat) → n ≤ 8 → Bool
  | 0, _ => true
  | i + 1, h =>
      if target[i] < hash[i] then false
      else if hash[i] < target[i] then true
      else fulltestBelow hash target i (by omega)

def fulltest (hash target : Vector UInt32 8) : Bool :=
  fulltestBelow hash target 8 le_rfl

variable (r : ScryptRoutines)

/-- `scryptHash`, when its scratch buffer was obtained. -/
def ScryptRoutines.scryptHash (input : Vector UInt8 80) : UInt256 :=
  let data := headerWords input
  uint256OfWords (scryptN_1_1_256 r data (headerMidstate r data))

/-- Store a word as the nonce of a header, its last four bytes. -/
def storeNonce (input : Vector UInt8 80) (n : UInt32) : Vector UInt8 80 :=
  .ofFn fun b => if b.val < 76 then input[b] else (be32enc n)[b.val - 76]

/-- What the search leaves: its result, the header and `*nHashesDone`. -/
structure SearchResult where
  found : Bool
  input : Vector UInt8 80
  nHashesDone : Nat

/-- The hashes of all lanes. -/
def scryptLanes : (throughput : Throughput) → Vector UInt32 (throughput.lanes * 20) →
    Vector UInt32 8 → Vector UInt32 (throughput.lanes * 8)
  | .one, data, midstate => scryptN_1_1_256 r data midstate
  | .three, data, midstate => scryptN_1_1_256_3way r data midstate
  | .four, data, midstate => scryptN_1_1_256_4way r data midstate
  | .twelve, data, midstate => scryptN_1_1_256_12way r data midstate
  | .twentyFour, data, midstate => scryptN_1_1_256_24way r data midstate

/-- Copies of the header, with the nonces `n`, `n + 1` and so on. -/
def laneData (pdata : Vector UInt32 20) (lanes : Nat) : Vector UInt32 (lanes * 20) :=
  (Vector.ofFn fun i : Fin lanes => pdata.set 19 (pdata[19] + UInt32.ofNat i)).flatten

def scryptN_1_1_256_multi (throughput : Throughput) (input : Vector UInt8 80)
    (hashTarget : UInt256) : SearchResult :=
  let pdata := headerWords input
  let data := laneData pdata throughput.lanes
  -- the midstate is that of the first copy, which is the header itself
  let dhash := scryptLanes r throughput data (headerMidstate r pdata)
  let passes (i : Fin throughput.lanes) : Bool :=
    fulltest (slice dhash (i * 8) 8 (row_le i.isLt)) (uint256Words hashTarget)
  match (List.finRange throughput.lanes).find? passes with
  | some i => ⟨true, storeNonce input (slice data (i * 20) 20 (row_le i.isLt))[19],
      throughput.lanes⟩
  | none => ⟨false, input, throughput.lanes⟩

end Multi

end Verium
