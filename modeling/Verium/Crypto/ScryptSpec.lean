import Mathlib.Data.BitVec
import Verium.Crypto.Scrypt
import Verium.Pow

/-!
Miner and validator agree. If the wide routines compute lane-wise what the narrow ones compute, a
lane of each wide function is the narrow function on the lane, so every layout of the search hashes
each of its headers as `scryptHash` does, and the header it stores passes the test of the validator.
-/

namespace Verium

open Lib

/-- What is assumed of the machine code: the wide routines are lane-wise. -/
structure ScryptRoutines.LaneWise (r : ScryptRoutines) : Prop where
  transform4way : ∀ (k : Fin 4) state block swap,
    lane k (r.sha256Transform4way state block swap) =
      r.sha256Transform (lane k state) (lane k block) swap
  transform8way : ∀ (k : Fin 8) state block swap,
    lane k (r.sha256Transform8way state block swap) =
      r.sha256Transform (lane k state) (lane k block) swap
  core3way : ∀ (k : Fin 3) X,
    slice (r.scryptCore3way X) (k * 32) 32 (row_le k.isLt) =
      r.scryptCore (slice X (k * 32) 32 (row_le k.isLt))
  core6way : ∀ (k : Fin 6) X,
    slice (r.scryptCore6way X) (k * 32) 32 (row_le k.isLt) =
      r.scryptCore (slice X (k * 32) 32 (row_le k.isLt))

section Ways

/-- A lane of wide SHA-256 is SHA-256. -/
structure LaneWiseSha256 {w : Nat} (s : Sha256Ways w) (r : ScryptRoutines) : Prop where
  init : ∀ k, lane k s.init = sha256H
  transform : ∀ k state block swap, lane k (s.transform state block swap) =
    r.sha256Transform (lane k state) (lane k block) swap
  keypad : ∀ k, lane k s.keypad = keypad
  innerpad : ∀ k, lane k s.innerpad = innerpad
  outerpad : ∀ k, lane k s.outerpad = outerpad
  finalblk : ∀ k, lane k s.finalblk = finalblk

variable {r : ScryptRoutines}

theorem ScryptRoutines.LaneWise.ways4 (h : r.LaneWise) : LaneWiseSha256 (sha256Ways4 r) r where
  init _ := lane_spread
  transform := h.transform4way
  keypad _ := lane_spread
  innerpad _ := lane_spread
  outerpad _ := lane_spread
  finalblk _ := lane_spread

theorem ScryptRoutines.LaneWise.ways8 (h : r.LaneWise) : LaneWiseSha256 (sha256Ways8 r) r where
  init _ := lane_spread
  transform := h.transform8way
  keypad k := by
    simp only [sha256Ways8, lane_appendLanes, lane_replicate]
    rfl
  innerpad k := by
    simp only [sha256Ways8, lane_appendLanes, lane_replicate]
    rfl
  outerpad k := by
    simp only [sha256Ways8, lane_appendLanes, lane_replicate]
    rfl
  finalblk _ := lane_spread

variable {w : Nat} {s : Sha256Ways w} (hs : LaneWiseSha256 s r) (k : Fin w)
include hs

theorem lane_hmacSha256_80_init {key : Vector UInt32 (w * 20)} {tstate : Vector UInt32 (w * 8)} :
    lane k (hmacSha256_80_initWays s key tstate).1 =
        (hmacSha256_80_init r (lane k key) (lane k tstate)).1 ∧
      lane k (hmacSha256_80_initWays s key tstate).2 =
        (hmacSha256_80_init r (lane k key) (lane k tstate)).2 := by
  constructor
  · simp [hmacSha256_80_initWays, hmacSha256_80_init, hs.transform, hs.init, hs.keypad]
  · simp [hmacSha256_80_initWays, hmacSha256_80_init, hs.transform, hs.init, hs.keypad]

theorem lane_pbkdf2Sha256_80_128 {tstate ostate : Vector UInt32 (w * 8)}
    {salt : Vector UInt32 (w * 20)} :
    lane k (pbkdf2Sha256_80_128Ways s tstate ostate salt) =
      pbkdf2Sha256_80_128 r (lane k tstate) (lane k ostate) (lane k salt) := by
  simp only [pbkdf2Sha256_80_128Ways, pbkdf2Sha256_80_128, hs.transform, hs.innerpad, hs.outerpad,
    lane_appendLanes, lane_map, lane_replicate, lane_slice (show 0 + 16 ≤ 20 by decide),
    lane_slice (show 16 + 4 ≤ 20 by decide)]

theorem lane_pbkdf2Sha256_128_32 {tstate ostate : Vector UInt32 (w * 8)}
    {salt : Vector UInt32 (w * 32)} :
    lane k (pbkdf2Sha256_128_32Ways s tstate ostate salt) =
      pbkdf2Sha256_128_32 r (lane k tstate) (lane k ostate) (lane k salt) := by
  simp only [pbkdf2Sha256_128_32Ways, pbkdf2Sha256_128_32, hs.transform, hs.finalblk, hs.outerpad,
    lane_appendLanes, lane_map, lane_slice (show 0 + 16 ≤ 32 by decide),
    lane_slice (show 16 + 16 ≤ 32 by decide)]

end Ways

section Layouts

variable {r : ScryptRoutines} {midstate : Vector UInt32 8}

variable {w c groups l : Nat}

/-- The number of a lane within its group. -/
def innerLane (hl : l < groups * w) : Fin w :=
  ⟨l % w, inner_lt hl⟩

def groupOf (hl : l < groups * w) : Fin groups :=
  ⟨l / w, group_lt hl⟩

theorem lane_weaveGroups {input : Vector UInt32 (groups * (w * 20))} (hl : l < groups * w) :
    lane (innerLane hl) (weaveGroups input)[groupOf hl] =
      slice input (l * 20) 20 (lane_le hl) := by
  rw [weaveGroups, Fin.getElem_fin, Vector.getElem_ofFn, lane_weave]
  exact slice_slice_lane hl

theorem slice_expandGroups
    {expand : Vector UInt32 (w * 8) → Vector UInt32 (w * 8) → Vector UInt32 (w * 20) →
      Vector UInt32 (w * 32)}
    (hexpand : ∀ k tstate ostate salt, lane k (expand tstate ostate salt) =
      pbkdf2Sha256_80_128 r (lane k tstate) (lane k ostate) (lane k salt))
    {states : Vector (Vector UInt32 (w * 8) × Vector UInt32 (w * 8)) groups}
    {W : Vector (Vector UInt32 (w * 20)) groups} (hl : l < groups * w) :
    slice (expandGroups expand states W) (l * 32) 32 (lane_le hl) =
      pbkdf2Sha256_80_128 r (lane (innerLane hl) states[groupOf hl].1)
        (lane (innerLane hl) states[groupOf hl].2) (lane (innerLane hl) W[groupOf hl]) := by
  rw [expandGroups, slice_flatten_lane hl, Fin.getElem_fin, Vector.getElem_ofFn]
  exact (slice_unweave (inner_lt hl)).trans (hexpand _ _ _ _)

theorem slice_coreCalls {calls : Nat} {core : Vector UInt32 (c * 32) → Vector UInt32 (c * 32)}
    (hcore : ∀ (k : Fin c) X, slice (core X) (k * 32) 32 (row_le k.isLt) =
      r.scryptCore (slice X (k * 32) 32 (row_le k.isLt)))
    {X : Vector UInt32 (calls * (c * 32))} (hl : l < calls * c) :
    slice (coreCalls core X) (l * 32) 32 (lane_le hl) =
      r.scryptCore (slice X (l * 32) 32 (lane_le hl)) := by
  rw [coreCalls, slice_flatten_lane hl, Fin.getElem_fin, Vector.getElem_ofFn, ← slice_slice_lane hl]
  exact hcore (innerLane hl) _

theorem slice_extractGroups
    {extract : Vector UInt32 (w * 8) → Vector UInt32 (w * 8) → Vector UInt32 (w * 32) →
      Vector UInt32 (w * 8)}
    (hextract : ∀ k tstate ostate salt, lane k (extract tstate ostate salt) =
      pbkdf2Sha256_128_32 r (lane k tstate) (lane k ostate) (lane k salt))
    {states : Vector (Vector UInt32 (w * 8) × Vector UInt32 (w * 8)) groups}
    {X : Vector UInt32 (groups * (w * 32))} (hl : l < groups * w) :
    slice (extractGroups extract states X) (l * 8) 8 (lane_le hl) =
      pbkdf2Sha256_128_32 r (lane (innerLane hl) states[groupOf hl].1)
        (lane (innerLane hl) states[groupOf hl].2) (slice X (l * 32) 32 (lane_le hl)) := by
  rw [extractGroups, slice_flatten_lane hl, Fin.getElem_fin, Vector.getElem_ofFn,
    ← slice_slice_lane hl]
  refine (slice_unweave (inner_lt hl)).trans ((hextract _ _ _ _).trans ?_)
  rw [lane_weave]
  rfl

theorem slice_scryptGroups
    {init : Vector UInt32 (w * 20) → Vector UInt32 (w * 8) →
      Vector UInt32 (w * 8) × Vector UInt32 (w * 8)}
    {expand : Vector UInt32 (w * 8) → Vector UInt32 (w * 8) → Vector UInt32 (w * 20) →
      Vector UInt32 (w * 32)} {core : Vector UInt32 (c * 32) → Vector UInt32 (c * 32)}
    {extract : Vector UInt32 (w * 8) → Vector UInt32 (w * 8) → Vector UInt32 (w * 32) →
      Vector UInt32 (w * 8)} (hinit : ∀ k key tstate,
      lane k (init key tstate).1 = (hmacSha256_80_init r (lane k key) (lane k tstate)).1 ∧
        lane k (init key tstate).2 = (hmacSha256_80_init r (lane k key) (lane k tstate)).2)
    (hexpand : ∀ k tstate ostate salt, lane k (expand tstate ostate salt) =
      pbkdf2Sha256_80_128 r (lane k tstate) (lane k ostate) (lane k salt))
    (hcore : ∀ (k : Fin c) X, slice (core X) (k * 32) 32 (row_le k.isLt) =
      r.scryptCore (slice X (k * 32) 32 (row_le k.isLt)))
    (hextract : ∀ k tstate ostate salt, lane k (extract tstate ostate salt) =
      pbkdf2Sha256_128_32 r (lane k tstate) (lane k ostate) (lane k salt))
    {calls : Nat} (h : groups * w = calls * c) {input : Vector UInt32 (groups * (w * 20))}
    (hl : l < groups * w) :
    slice (scryptGroups init expand core extract calls h input midstate) (l * 8) 8 (lane_le hl) =
      scryptN_1_1_256 r (slice input (l * 20) 20 (lane_le hl)) midstate := by
  have hl' : l < calls * c := h ▸ hl
  have hstates := hinit (innerLane hl) (weaveGroups input)[groupOf hl] (spread w midstate)
  rw [lane_weaveGroups, lane_spread] at hstates
  rw [scryptGroups, slice_extractGroups hextract hl, slice_cast, slice_coreCalls hcore hl',
    slice_cast, slice_expandGroups hexpand hl, lane_weaveGroups]
  simp only [Fin.getElem_fin, Vector.getElem_map] at hstates ⊢
  rw [hstates.1, hstates.2]
  rfl

theorem slice_scryptN_1_1_256_3way (h : r.LaneWise) {input : Vector UInt32 (3 * 20)} {k : Nat}
    (hk : k < 3) : slice (scryptN_1_1_256_3way r input midstate) (k * 8) 8 (row_le hk) =
      scryptN_1_1_256 r (slice input (k * 20) 20 (row_le hk)) midstate := by
  simp only [scryptN_1_1_256_3way]
  rw [slice_flatten_part hk, Vector.getElem_ofFn, h.core3way ⟨k, hk⟩, slice_flatten_part hk,
    Vector.getElem_ofFn]
  simp only [Fin.getElem_fin, Vector.getElem_map, Vector.getElem_ofFn]
  rfl

/-- Whatever the number of lanes, each is hashed as `scrypt_N_1_1_256` hashes it. -/
theorem slice_scryptLanes (h : r.LaneWise) (throughput : Throughput)
    {data : Vector UInt32 (throughput.lanes * 20)} (hl : l < throughput.lanes) :
    slice (scryptLanes r throughput data midstate) (l * 8) 8 (row_le hl) =
      scryptN_1_1_256 r (slice data (l * 20) 20 (row_le hl)) midstate := by
  have hone : ∀ (k : Fin 1) (X : Vector UInt32 (1 * 32)),
      slice (r.scryptCore X) (k * 32) 32 (row_le k.isLt) =
        r.scryptCore (slice X (k * 32) 32 (row_le k.isLt)) := by
    intro k X
    exact slice_self.trans (congrArg r.scryptCore slice_self.symm)
  cases throughput with
  | one => exact slice_self.trans (congrArg (scryptN_1_1_256 r · midstate) slice_self.symm)
  | three => exact slice_scryptN_1_1_256_3way h hl
  | four =>
    exact slice_scryptGroups (fun k _ _ => lane_hmacSha256_80_init h.ways4 k)
      (fun k _ _ _ => lane_pbkdf2Sha256_80_128 h.ways4 k) hone
      (fun k _ _ _ => lane_pbkdf2Sha256_128_32 h.ways4 k) rfl hl
  | twelve =>
    exact slice_scryptGroups (fun k _ _ => lane_hmacSha256_80_init h.ways4 k)
      (fun k _ _ _ => lane_pbkdf2Sha256_80_128 h.ways4 k) h.core3way
      (fun k _ _ _ => lane_pbkdf2Sha256_128_32 h.ways4 k) rfl hl
  | twentyFour =>
    exact slice_scryptGroups (fun k _ _ => lane_hmacSha256_80_init h.ways8 k)
      (fun k _ _ _ => lane_pbkdf2Sha256_80_128 h.ways8 k) h.core6way
      (fun k _ _ _ => lane_pbkdf2Sha256_128_32 h.ways8 k) rfl hl

end Layouts

section Headers

variable {input : Vector UInt8 80} {n : UInt32}

theorem be32dec_be32enc (n : UInt32) : be32dec (be32enc n) = n := by
  have hbyte : ∀ x : UInt32, (x &&& 0xff).toUInt8.toUInt32.toNat = x.toNat % 256 := by
    intro x
    have hmask : x.toNat % 256 &&& 255 = x.toNat % 256 % 2 ^ 8 :=
      Nat.and_two_pow_sub_one_eq_mod _ 8
    simp [hmask]
  have hlt := n.toNat_lt
  apply UInt32.toNat_inj.mp
  change ((n &&& 0xff).toUInt8.toUInt32 + ((n >>> 8 &&& 0xff).toUInt8.toUInt32 <<< 8) +
    ((n >>> 16 &&& 0xff).toUInt8.toUInt32 <<< 16) +
    ((n >>> 24 &&& 0xff).toUInt8.toUInt32 <<< 24)).toNat = n.toNat
  simp only [UInt32.toNat_add, UInt32.toNat_shiftLeft, hbyte, UInt32.toNat_shiftRight,
    UInt32.reduceToNat, Nat.reduceMod, Nat.shiftLeft_eq, Nat.shiftRight_eq_div_pow, Nat.reducePow]
  omega

theorem getElem_storeNonce {b : Nat} (hb : b < 80) :
    (storeNonce input n)[b] = if b < 76 then input[b] else (be32enc n)[b - 76] := by
  simp [storeNonce]

theorem headerWords_storeNonce :
    headerWords (storeNonce input n) = (headerWords input).set 19 n (by decide) := by
  apply Vector.ext
  intro i hi
  rw [Vector.getElem_set]
  split
  · next hlast =>
    subst hlast
    have hnonce : slice (storeNonce input n) (19 * 4) 4 (by decide) = be32enc n := by
      apply Vector.ext
      intro b hb
      rw [getElem_slice hb, getElem_storeNonce, if_neg (by omega)]
      congr 1
      omega
    rw [headerWords, Vector.getElem_ofFn, hnonce, be32dec_be32enc]
  · next hother =>
    have hword : slice (storeNonce input n) (i * 4) 4 (by omega) =
        slice input (i * 4) 4 (by omega) := by
      apply Vector.ext
      intro b hb
      rw [getElem_slice hb, getElem_slice hb, getElem_storeNonce, if_pos (by omega)]
    rw [headerWords, headerWords, Vector.getElem_ofFn, Vector.getElem_ofFn, hword]

theorem headerMidstate_set (r : ScryptRoutines) (data : Vector UInt32 20) :
    headerMidstate r (data.set 19 n (by decide)) = headerMidstate r data := by
  have hfirst : slice (data.set 19 n (by decide)) 0 16 (by decide) =
      slice data 0 16 (by decide) := by
    ext i hi
    simp only [getElem_slice hi]
    rw [Vector.getElem_set_ne]
    omega
  rw [headerMidstate, headerMidstate, hfirst]

end Headers

theorem wordsNat_lt (v : Vector UInt32 8) {n : Nat} (h : n ≤ 8) :
    wordsNat v n h < 2 ^ (32 * n) := by
  induction n with
  | zero => simp [wordsNat]
  | succ n ih =>
    have hlow := ih (by omega)
    have hword := v[n].toNat_lt
    rw [wordsNat, Nat.mul_succ, Nat.pow_add]
    nlinarith

theorem fulltestBelow_eq_true {hash target : Vector UInt32 8} {n : Nat} (h : n ≤ 8) :
    fulltestBelow hash target n h = true ↔ wordsNat hash n h ≤ wordsNat target n h := by
  induction n with
  | zero => simp [fulltestBelow, wordsNat]
  | succ n ih =>
    have hhash := wordsNat_lt hash (show n ≤ 8 by omega)
    have htarget := wordsNat_lt target (show n ≤ 8 by omega)
    rw [fulltestBelow, wordsNat, wordsNat]
    split
    · next hlt =>
      rw [UInt32.lt_iff_toNat_lt] at hlt
      simp only [Bool.false_eq_true, false_iff, not_le]
      nlinarith
    · split
      · next hlt =>
        rw [UInt32.lt_iff_toNat_lt] at hlt
        simp only [true_iff]
        nlinarith
      · next hle hge =>
        rw [UInt32.lt_iff_toNat_lt] at hle hge
        have heq : hash[n] = target[n] := UInt32.toNat_inj.mp (by omega)
        rw [ih (by omega), heq, Nat.add_le_add_iff_right]

theorem wordsNat_uint256Words (x : UInt256) {n : Nat} (h : n ≤ 8) :
    wordsNat (uint256Words x) n h = x.toNat % 2 ^ (32 * n) := by
  induction n with
  | zero => simp [wordsNat, Nat.mod_one]
  | succ n ih =>
    have hword : (uint256Words x)[n].toNat = x.toNat / 2 ^ (32 * n) % 2 ^ 32 := by
      simp [uint256Words]
    rw [wordsNat, ih (by omega), hword, Nat.mul_succ, Nat.pow_add, Nat.mod_mul,
      Nat.mul_comm (2 ^ _)]

theorem fulltest_iff {hash : Vector UInt32 8} {target : UInt256} :
    fulltest hash (uint256Words target) = true ↔ (uint256OfWords hash).toNat ≤ target.toNat := by
  have hlt := wordsNat_lt hash le_rfl
  rw [fulltest, fulltestBelow_eq_true, wordsNat_uint256Words, uint256OfWords, BitVec.toNat_ofNat,
    Nat.mod_eq_of_lt hlt, Nat.mod_eq_of_lt target.isLt]

section Search

variable {r : ScryptRoutines}

/-- The nonce that the search starts at. -/
def headerNonce (input : Vector UInt8 80) : UInt32 :=
  (headerWords input)[(19 : Fin 20)]

/-- The header that lane `i` of the search hashes. -/
def laneHeader (input : Vector UInt8 80) (i : Nat) : Vector UInt8 80 :=
  storeNonce input (headerNonce input + UInt32.ofNat i)

theorem slice_laneData {input : Vector UInt8 80} {lanes l : Nat} (hl : l < lanes) :
    slice (laneData (headerWords input) lanes) (l * 20) 20 (row_le hl) =
      headerWords (laneHeader input l) := by
  rw [laneData, slice_flatten_part hl, Vector.getElem_ofFn, laneHeader, headerWords_storeNonce]
  rfl

theorem storeNonce_laneData {input : Vector UInt8 80} {lanes l : Nat} (hl : l < lanes) :
    storeNonce input (slice (laneData (headerWords input) lanes) (l * 20) 20 (row_le hl))[19] =
      laneHeader input l := by
  simp only [slice_laneData hl, laneHeader, headerWords_storeNonce, Vector.getElem_set_self]

/-- A lane of the search passes `fulltest` if `scryptHash` of its header is at most the target. -/
theorem fulltest_scryptLanes (h : r.LaneWise) {throughput : Throughput} {input : Vector UInt8 80}
    {hashTarget : UInt256} {l : Nat} (hl : l < throughput.lanes) :
    fulltest (slice (scryptLanes r throughput (laneData (headerWords input) throughput.lanes)
        (headerMidstate r (headerWords input))) (l * 8) 8 (row_le hl)) (uint256Words hashTarget) =
      true ↔ (r.scryptHash (laneHeader input l)).toNat ≤ hashTarget.toNat := by
  have hmidstate : headerMidstate r (headerWords input) =
      headerMidstate r (headerWords (laneHeader input l)) := by
    rw [laneHeader, headerWords_storeNonce, headerMidstate_set]
  rw [slice_scryptLanes h throughput hl, slice_laneData hl, hmidstate, fulltest_iff]
  rfl

/-- The search succeeds exactly if `scryptHash` of one of the headers it tries is at most the
target, and then it has stored the nonce of such a header and changed nothing else. -/
theorem scryptSearch_agrees (h : r.LaneWise) (throughput : Throughput) (input : Vector UInt8 80)
    (hashTarget : UInt256) :
    let result := scryptN_1_1_256_multi r throughput input hashTarget
    (result.found = true ↔
      ∃ i < throughput.lanes, (r.scryptHash (laneHeader input i)).toNat ≤ hashTarget.toNat) ∧
    (result.found = true →
      (∃ i < throughput.lanes, result.input = laneHeader input i) ∧
      (r.scryptHash result.input).toNat ≤ hashTarget.toNat) ∧
    (result.found = false → result.input = input) ∧
    ∀ b (hb : b < 76), result.input[b] = input[b] := by
  intro result
  cases hfind : (List.finRange throughput.lanes).find? fun i : Fin throughput.lanes =>
      fulltest (slice (scryptLanes r throughput (laneData (headerWords input) throughput.lanes)
        (headerMidstate r (headerWords input))) (i * 8) 8 (row_le i.isLt))
        (uint256Words hashTarget) with
  | none =>
    have hresult : result = ⟨false, input, throughput.lanes⟩ := by
      simp only [result, scryptN_1_1_256_multi, hfind]
    have hnone : ¬ ∃ i < throughput.lanes,
        (r.scryptHash (laneHeader input i)).toNat ≤ hashTarget.toNat := by
      rintro ⟨i, hi, hle⟩
      have hfails := List.find?_eq_none.mp hfind ⟨i, hi⟩ (List.mem_finRange _)
      exact hfails ((fulltest_scryptLanes h hi).mpr hle)
    rw [hresult]
    simp [hnone]
  | some i =>
    have htest := List.find?_some hfind
    have hpass := (fulltest_scryptLanes h i.isLt).mp htest
    have hresult : result = ⟨true, laneHeader input i, throughput.lanes⟩ := by
      simp only [result, scryptN_1_1_256_multi, hfind, storeNonce_laneData i.isLt]
    rw [hresult]
    refine ⟨⟨fun _ => ⟨i, i.isLt, hpass⟩, fun _ => rfl⟩, fun _ => ⟨⟨i, i.isLt, rfl⟩, hpass⟩,
      fun hfalse => Bool.noConfusion hfalse, fun b hb => ?_⟩
    exact (getElem_storeNonce (by omega)).trans (if_pos hb)

/-- A block function that runs the narrow one on each lane. -/
def wideTransform (transform : Vector UInt32 8 → Vector UInt32 16 → Bool → Vector UInt32 8)
    {w : Nat}
    (state : Vector UInt32 (w * 8)) (block : Vector UInt32 (w * 16)) (swap : Bool) :
    Vector UInt32 (w * 8) :=
  ofLanes fun k => transform (lane k state) (lane k block) swap

theorem lane_wideTransform
    {transform : Vector UInt32 8 → Vector UInt32 16 → Bool → Vector UInt32 8} {w : Nat} (k : Fin w)
    (state : Vector UInt32 (w * 8)) (block : Vector UInt32 (w * 16)) (swap : Bool) :
    lane k (wideTransform transform state block swap) =
      transform (lane k state) (lane k block) swap :=
  lane_ofLanes

/-- A core that runs the narrow one on each lane. -/
def wideCore (core : Vector UInt32 32 → Vector UInt32 32) {c : Nat} (X : Vector UInt32 (c * 32)) :
    Vector UInt32 (c * 32) :=
  (Vector.ofFn fun k : Fin c => core (slice X (k * 32) 32 (row_le k.isLt))).flatten

theorem slice_wideCore {core : Vector UInt32 32 → Vector UInt32 32} {c : Nat} (k : Fin c)
    (X : Vector UInt32 (c * 32)) : slice (wideCore core X) (k * 32) 32 (row_le k.isLt) =
      core (slice X (k * 32) 32 (row_le k.isLt)) := by
  rw [wideCore, slice_flatten_part k.isLt, Vector.getElem_ofFn]

/-- Wide routines that run the narrow ones lane by lane. -/
def ScryptRoutines.ofNarrow
    (transform : Vector UInt32 8 → Vector UInt32 16 → Bool → Vector UInt32 8)
    (core : Vector UInt32 32 → Vector UInt32 32) : ScryptRoutines where
  sha256Transform := transform
  scryptCore := core
  sha256Transform4way := wideTransform transform
  sha256Transform8way := wideTransform transform
  scryptCore3way := wideCore core
  scryptCore6way := wideCore core

theorem ScryptRoutines.ofNarrow_laneWise
    (transform : Vector UInt32 8 → Vector UInt32 16 → Bool → Vector UInt32 8)
    (core : Vector UInt32 32 → Vector UInt32 32) :
    (ScryptRoutines.ofNarrow transform core).LaneWise where
  transform4way := lane_wideTransform
  transform8way := lane_wideTransform
  core3way := slice_wideCore
  core6way := slice_wideCore

/-- A block function in which one word of the block acts on the whole state, and a core that
reverses. -/
def mixingRoutines : ScryptRoutines :=
  .ofNarrow (fun state block _ => state.map (state[3] + (2654435761 : UInt32) * block[3] + ·))
    Vector.reverse

def countingHeader : Vector UInt8 80 :=
  .ofFn fun i => UInt8.ofNat (7 * i + 3)

/-- Of the four headers only the last meets the target, and its nonce is stored. -/
theorem mixingRoutines_found :
    (scryptN_1_1_256_multi mixingRoutines .four countingHeader (3 * 2 ^ 251)).found = true ∧
      (scryptN_1_1_256_multi mixingRoutines .four countingHeader (3 * 2 ^ 251)).input =
        laneHeader countingHeader 3 := by
  have honly : ∀ i < 4, (mixingRoutines.scryptHash (laneHeader countingHeader i)).toNat ≤
      (3 * 2 ^ 251 : UInt256).toNat ↔ i = 3 := by
    decide +kernel
  obtain ⟨hiff, hfound, -, -⟩ := scryptSearch_agrees
    (ScryptRoutines.ofNarrow_laneWise _ _ : mixingRoutines.LaneWise) .four countingHeader
    (3 * 2 ^ 251)
  have htrue := hiff.mpr ⟨3, by decide, (honly 3 (by decide)).mpr rfl⟩
  obtain ⟨⟨i, hi, hinput⟩, hle⟩ := hfound htrue
  rw [hinput] at hle
  rw [(honly i hi).mp hle] at hinput
  exact ⟨htrue, hinput⟩

end Search

end Verium
