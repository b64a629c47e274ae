import Verium.Lib.ShiftRegister
import Verium.Util.StrEncodings

/-!
Bech32 strings, `bech32.cpp`. What is encoded is decoded again, and a valid string does not stay
valid if characters of its data part are replaced within a window of six: the checksum is the state
of a shift register that holds six symbols.
-/

namespace Verium.Bech32

open Lib ShiftRegister

/-- "qpzry9x8gf2tvdw0s3jn54khce6mua7l" -/
def charset : Bytes :=
  [0x71, 0x70, 0x7a, 0x72, 0x79, 0x39, 0x78, 0x38, 0x67, 0x66, 0x32, 0x74,
   0x76, 0x64, 0x77, 0x30, 0x73, 0x33, 0x6a, 0x6e, 0x35, 0x34, 0x6b, 0x68,
   0x63, 0x65, 0x36, 0x6d, 0x75, 0x61, 0x37, 0x6c]

def charsetRev : List Int :=
  let x := -1
  [x, x, x, x, x, x, x, x, x, x, x, x, x, x, x, x,
   x, x, x, x, x, x, x, x, x, x, x, x, x, x, x, x,
   x, x, x, x, x, x, x, x, x, x, x, x, x, x, x, x,
   15, x, 10, 17, 21, 20, 26, 30, 7, 5, x, x, x, x, x, x,
   x, 29, x, 24, 13, 25, 9, 8, 23, x, 18, 22, 31, 27, 19, x,
   1, 0, 3, 16, 11, 28, 12, 14, 6, 4, 2, x, x, x, x, x,
   x, 29, x, 24, 13, 25, 9, 8, 23, x, 18, 22, 31, 27, 19, x,
   1, 0, 3, 16, 11, 28, 12, 14, 6, 4, 2, x, x, x, x, x]

/-- `CHARSET[c]` -/
def charOf (v : UInt8) : UInt8 :=
  charset.getD v.toNat 0

/-- `CHARSET_REV[c]` -/
def rev (c : UInt8) : Int :=
  charsetRev.getD c.toNat (-1)

/-- One round of the loop of `PolyMod`. -/
def polyModStep (c : BitVec 32) (v : UInt8) : BitVec 32 :=
  let c0 : BitVec 8 := (c >>> 25).setWidth 8
  let c := ((c &&& 0x1ffffff) <<< 5) ^^^ v.toBitVec.setWidth 32
  -- the tests of c0 & 1, c0 & 2, c0 & 4, c0 & 8 and c0 & 16
  let c := if c0.getLsbD 0 then c ^^^ 0x3b6a57b2 else c
  let c := if c0.getLsbD 1 then c ^^^ 0x26508e6d else c
  let c := if c0.getLsbD 2 then c ^^^ 0x1ea119fa else c
  let c := if c0.getLsbD 3 then c ^^^ 0x3d4233dd else c
  if c0.getLsbD 4 then c ^^^ 0x2a1462b3 else c

def polyMod (v : List UInt8) : BitVec 32 :=
  v.foldl polyModStep 1

def isLower (c : UInt8) : Bool :=
  0x61 ≤ c && c ≤ 0x7a

def isUpper (c : UInt8) : Bool :=
  0x41 ≤ c && c ≤ 0x5a

def lowerCase (c : UInt8) : UInt8 :=
  if isUpper c then (c - 0x41) + 0x61 else c

def expandHRP (hrp : Bytes) : List UInt8 :=
  hrp.map (fun c : UInt8 => c >>> 5) ++ 0 :: hrp.map fun c : UInt8 => c &&& 0x1f

def verifyChecksum (hrp : Bytes) (values : List UInt8) : Bool :=
  polyMod (expandHRP hrp ++ values) = 1

def createChecksum (hrp : Bytes) (values : List UInt8) : List UInt8 :=
  let enc := expandHRP hrp ++ values ++ List.replicate 6 0
  let mod := polyMod enc ^^^ 1
  (List.range 6).map fun i => UInt8.ofBitVec (((mod >>> (5 * (5 - i))) &&& 31).setWidth 8)

/-- The separator. -/
def one : UInt8 := 0x31

/-- Nothing is returned if the assertion fails that the readable part has no upper case. -/
def encode (hrp : Bytes) (values : List UInt8) : Option Bytes :=
  if hrp.any isUpper then none
  else some (hrp ++ one :: (values ++ createChecksum hrp values).map charOf)

/-- The first loop of `Decode`: whether lower and upper case letters occur. -/
def scanCase : (str : Bytes) → (lower upper : Bool) → Option (Bool × Bool)
  | [], lower, upper => some (lower, upper)
  | c :: str, lower, upper =>
      if isLower c then scanCase str true upper
      else if isUpper c then scanCase str lower true
      else if c < 33 ∨ 126 < c then none
      else scanCase str lower upper

/-- `str.rfind(c)` -/
def rfind (c : UInt8) : (str : Bytes) → Option Nat
  | [] => none
  | c' :: str =>
      match rfind c str with
      | some pos => some (pos + 1)
      | none => if c' = c then some 0 else none

/-- The value of a character that is in the table. -/
def symbolOf (c : UInt8) : UInt8 :=
  UInt8.ofNat (rev c).toNat

/-- `Decode` after the position of the separator is known. -/
def decodeAt (str : Bytes) (pos : Nat) : Option (Bytes × List UInt8) :=
  if 90 < str.length ∨ pos = 0 ∨ str.length < pos + 7 then none
  else
    let chars := str.drop (pos + 1)
    if chars.any (rev · = -1) then none
    else
      let values := chars.map symbolOf
      let hrp := (str.take pos).map lowerCase
      if verifyChecksum hrp values then some (hrp, values.take (values.length - 6)) else none

def decodeFull (str : Bytes) : Option (Bytes × List UInt8) := do
  let (lower, upper) ← scanCase str false false
  if lower && upper then none
  else
    let pos ← rfind one str
    decodeAt str pos

/-- The empty pair stands for a string that is rejected. -/
def decode (str : Bytes) : Bytes × List UInt8 :=
  (decodeFull str).getD ([], [])

theorem independent_taps : ∀ s < 2 ^ 5,
    (∀ i < 5, (feedback [0x3b6a57b2, 0x26508e6d, 0x1ea119fa, 0x3d4233dd, (0x2a1462b3 : BitVec 32)]
      s.testBit).getLsbD i = false) → s = 0 := by
  decide +kernel

/-- The register of the checksum, with the multiples of x^6 modulo the generator. -/
def register : Register 32 5 5 where
  taps := [0x3b6a57b2, 0x26508e6d, 0x1ea119fa, 0x3d4233dd, 0x2a1462b3]
  length_taps := rfl
  taps_below := by simp [below_iff]
  fits := by decide
  independent := independent_taps

/-- A symbol in the word of the register. -/
def word (v : UInt8) : BitVec 32 :=
  v.toBitVec.setWidth 32

theorem polyModStep_eq (c : BitVec 32) (v : UInt8) :
    polyModStep c v = register.step c (word v) := by
  have hbit : ∀ i < 8, ((c >>> 25).setWidth 8).getLsbD i = c.getLsbD (25 + i) := by
    intro i hi
    rw [BitVec.getLsbD_setWidth, BitVec.getLsbD_ushiftRight, decide_eq_true hi, Bool.true_and]
  have hmask : (0x1ffffff : BitVec 32) = mask 32 25 := by decide
  simp only [polyModStep, hbit 0 (by decide), hbit 1 (by decide), hbit 2 (by decide),
    hbit 3 (by decide), hbit 4 (by decide), ite_xor, hmask, Register.step, Register.next, register,
    feedback, word, Nat.reduceMul, Nat.reduceAdd, BitVec.ofNat_eq_ofNat, BitVec.xor_zero]
  ac_rfl

theorem polyMod_eq (v : List UInt8) : polyMod v = register.run 1 (v.map word) := by
  rw [polyMod, Register.run, List.foldl_map]
  congr 1
  funext c v
  exact polyModStep_eq c v

theorem toNat_word (v : UInt8) : (word v).toNat = v.toNat := by
  have hv := v.toNat_lt
  rw [word, BitVec.toNat_setWidth, UInt8.toNat_toBitVec, Nat.mod_eq_of_lt (by omega)]

theorem below_word_iff {v : UInt8} : Below 5 (word v) ↔ v < 32 := by
  rw [below_iff, toNat_word, UInt8.lt_iff_toNat_lt]
  rfl

theorem word_injective : Function.Injective word := by
  intro v v' h
  have htoNat := congrArg BitVec.toNat h
  rw [toNat_word, toNat_word] at htoNat
  exact UInt8.toNat_inj.mp htoNat

theorem expandHRP_lt (hrp : Bytes) : ∀ v ∈ expandHRP hrp, v < 32 := by
  intro v hv
  rw [UInt8.lt_iff_toNat_lt]
  rcases List.mem_append.mp hv with hv | hv
  · obtain ⟨c, -, rfl⟩ := List.mem_map.mp hv
    have hc := c.toNat_lt
    rw [UInt8.toNat_shiftRight, Nat.shiftRight_eq_div_pow]
    simp only [UInt8.reduceToNat, Nat.reduceMod, Nat.reducePow]
    omega
  · rcases List.mem_cons.mp hv with rfl | hv
    · decide
    · obtain ⟨c, -, rfl⟩ := List.mem_map.mp hv
      rw [UInt8.toNat_and]
      exact Nat.and_lt_two_pow c.toNat (n := 5) (by decide)

theorem below_one : Below (5 * (5 + 1)) (1 : BitVec 32) := by simp [below_iff]

theorem below_words {v : List UInt8} (h : ∀ x ∈ v, x < 32) : ∀ x ∈ v.map word, Below 5 x := by
  intro x hx
  obtain ⟨c, hc, rfl⟩ := List.mem_map.mp hx
  exact below_word_iff.mpr (h c hc)

theorem word_ofBitVec (x : BitVec 32) :
    word (UInt8.ofBitVec ((x &&& 31).setWidth 8)) = x &&& mask 32 5 := by
  have hlt : (x &&& mask 32 5).toNat < 2 ^ 5 := below_iff.mp (below_mask x)
  have hmask : (31 : BitVec 32) = mask 32 5 := by decide
  rw [hmask]
  apply BitVec.eq_of_toNat_eq
  simp only [word, BitVec.toNat_setWidth]
  rw [Nat.mod_eq_of_lt (by omega), Nat.mod_eq_of_lt (by omega)]

theorem createChecksum_lt (hrp : Bytes) (values : List UInt8) :
    ∀ v ∈ createChecksum hrp values, v < 32 := by
  intro v hv
  obtain ⟨i, -, rfl⟩ := List.mem_map.mp hv
  rw [← below_word_iff, word_ofBitVec]
  exact below_mask _

/-- The symbols of the checksum in the register are those of the word. -/
theorem map_word_createChecksum (hrp : Bytes) (values : List UInt8) :
    (createChecksum hrp values).map word =
      symbols 5 6 (polyMod (expandHRP hrp ++ values ++ List.replicate 6 0) ^^^ 1) := by
  rw [createChecksum, List.map_map, symbols]
  apply List.map_congr_left
  intro i _
  exact word_ofBitVec _

theorem verifyChecksum_createChecksum {values : List UInt8} (hrp : Bytes)
    (hvalues : ∀ v ∈ values, v < 32) :
    verifyChecksum hrp (values ++ createChecksum hrp values) = true := by
  have hinput : ∀ v ∈ expandHRP hrp ++ values ++ List.replicate 6 0, v < 32 := by
    intro v hv
    rcases List.mem_append.mp hv with hv | hv
    · rcases List.mem_append.mp hv with hv | hv
      · exact expandHRP_lt hrp v hv
      · exact hvalues v hv
    · rw [List.eq_of_mem_replicate hv]
      decide
  have hmod : Below (5 * (5 + 1))
      (polyMod (expandHRP hrp ++ values ++ List.replicate 6 0) ^^^ 1) := by
    rw [polyMod_eq]
    exact (register.run_below below_one (below_words hinput)).xor below_one
  rw [verifyChecksum, decide_eq_true_eq, ← List.append_assoc, polyMod_eq, List.map_append,
    map_word_createChecksum, Register.run_append, register.run_symbols _ le_rfl hmod]
  rw [polyMod_eq, @List.map_append _ _ _ _ (List.replicate 6 0), Register.run_append,
    List.map_replicate]
  have hzero : word 0 = 0 := rfl
  rw [hzero, ← BitVec.xor_assoc]
  simp

theorem verifyChecksum_burst {hrp : Bytes} {pre u u' post : List UInt8}
    (hpre : ∀ v ∈ pre, v < 32) (hu : ∀ v ∈ u, v < 32) (hu' : ∀ v ∈ u', v < 32)
    (hpost : ∀ v ∈ post, v < 32) (hlen : u.length = u'.length) (hwindow : u.length ≤ 6)
    (hne : u ≠ u') (h : verifyChecksum hrp (pre ++ u ++ post) = true) :
    verifyChecksum hrp (pre ++ u' ++ post) = false := by
  have hfront : ∀ v ∈ expandHRP hrp ++ pre, v < 32 :=
    List.forall_mem_append.mpr ⟨expandHRP_lt hrp, hpre⟩
  have hburst := @Register.run_burst 32 5 5 register 1 ((expandHRP hrp ++ pre).map word)
    (u.map word) (u'.map word) (post.map word) below_one (below_words hfront) (below_words hu)
    (below_words hu') (below_words hpost) (by simpa using hlen) (by simpa using hwindow)
    fun h => hne (List.map_injective_iff.mpr word_injective h)
  simp only [← List.map_append, ← polyMod_eq, List.append_assoc] at hburst
  simp only [verifyChecksum, decide_eq_true_eq, decide_eq_false_iff_not, List.append_assoc] at h ⊢
  intro h'
  exact hburst (h.trans h'.symm)

section Characters

variable {c v : UInt8}

/-- No letter of the other case. -/
def inCase (upper : Bool) (c : UInt8) : Bool :=
  if upper then !isLower c else !isUpper c

def caseChar (upper : Bool) (v : UInt8) : UInt8 :=
  if upper ∧ isLower (charOf v) then charOf v - 0x20 else charOf v

theorem charOf_spec (h : v < 32) : rev (charOf v) = v.toNat ∧ isUpper (charOf v) = false ∧
    33 ≤ charOf v ∧ charOf v ≤ 126 ∧ charOf v ≠ one := by
  have htable : ∀ n < 32, rev (charOf (UInt8.ofNat n)) = n ∧
      isUpper (charOf (UInt8.ofNat n)) = false ∧ 33 ≤ charOf (UInt8.ofNat n) ∧
        charOf (UInt8.ofNat n) ≤ 126 ∧ charOf (UInt8.ofNat n) ≠ one := by
    decide +kernel
  have hv := htable v.toNat (UInt8.lt_iff_toNat_lt.mp h)
  rwa [UInt8.ofNat_toNat] at hv

theorem symbolOf_charOf (h : v < 32) : symbolOf (charOf v) = v := by
  rw [symbolOf, (charOf_spec h).1, Int.toNat_natCast, UInt8.ofNat_toNat]

/-- A character of the table is determined by its value and its case. -/
theorem symbolOf_spec (h : rev c ≠ -1) :
    symbolOf c < 32 ∧ ∀ upper, inCase upper c = true → caseChar upper (symbolOf c) = c := by
  have htable : ∀ n < 256, rev (UInt8.ofNat n) = -1 ∨ symbolOf (UInt8.ofNat n) < 32 ∧
      ∀ upper, inCase upper (UInt8.ofNat n) = true →
        caseChar upper (symbolOf (UInt8.ofNat n)) = UInt8.ofNat n := by
    decide +kernel
  have hc := htable c.toNat c.toNat_lt
  rw [UInt8.ofNat_toNat] at hc
  exact hc.resolve_left h

theorem lowerCase_eq (h : isUpper c = false) : lowerCase c = c := by
  simp [lowerCase, h]

end Characters

section Decode

variable {str pre post : Bytes} {pos : Nat}

theorem scanCase_eq (h : ∀ c ∈ str, 33 ≤ c ∧ c ≤ 126 ∧ isUpper c = false) (lower upper : Bool) :
    ∃ lower', scanCase str lower upper = some (lower', upper) := by
  induction str generalizing lower with
  | nil => exact ⟨lower, rfl⟩
  | cons c str ih =>
    obtain ⟨⟨hlow, hhigh, hupper⟩, hstr⟩ := List.forall_mem_cons.mp h
    have hrange : ¬ (c < 33 ∨ 126 < c) := by
      rw [not_or, UInt8.not_lt, UInt8.not_lt]
      exact ⟨hlow, hhigh⟩
    by_cases hlower : isLower c = true
    · simpa [scanCase, hlower] using ih hstr true
    · simpa [scanCase, hlower, hupper, hrange] using ih hstr lower

theorem rfind_eq_none {c : UInt8} (h : c ∉ str) : rfind c str = none := by
  induction str with
  | nil => rfl
  | cons c' str ih =>
    rw [List.mem_cons, not_or] at h
    simp [rfind, ih h.2, Ne.symm h.1]

theorem rfind_append {c : UInt8} (pre : Bytes) (h : c ∉ post) :
    rfind c (pre ++ c :: post) = some pre.length := by
  induction pre with
  | nil => simp [rfind, rfind_eq_none h]
  | cons c' pre ih => simp [rfind, ih]

theorem decodeAt_append (pre post : Bytes) :
    decodeAt (pre ++ one :: post) pre.length =
      if 90 < (pre ++ one :: post).length ∨ pre.length = 0 ∨
          (pre ++ one :: post).length < pre.length + 7 then none
      else if post.any (rev · = -1) then none
      else if verifyChecksum (pre.map lowerCase) (post.map symbolOf) then
        some (pre.map lowerCase, (post.map symbolOf).take ((post.map symbolOf).length - 6))
      else none := by
  have hdrop : (pre ++ one :: post).drop (pre.length + 1) = post := by simp
  have htake : (pre ++ one :: post).take pre.length = pre := by simp
  simp only [decodeAt, hdrop, htake]

theorem verify_of_decodeFull {r : Bytes × List UInt8} (hpost : one ∉ post)
    (h : decodeFull (pre ++ one :: post) = some r) :
    (∀ c ∈ post, rev c ≠ -1) ∧
      verifyChecksum (pre.map lowerCase) (post.map symbolOf) = true := by
  simp only [decodeFull, Option.bind_eq_bind, Option.bind_eq_some_iff] at h
  obtain ⟨⟨lower, upper⟩, -, h⟩ := h
  split at h
  · cases h
  · rw [rfind_append pre hpost, Option.bind_some, decodeAt_append] at h
    split at h
    · cases h
    · split at h
      · cases h
      next hrev =>
        split at h
        next hverify =>
          refine ⟨?_, hverify⟩
          simpa using hrev
        · cases h

end Decode

/-- A human-readable part in lower case. -/
structure IsLowerHrp (hrp : Bytes) : Prop where
  ne_nil : hrp ≠ []
  range : ∀ c ∈ hrp, 33 ≤ c ∧ c ≤ 126
  lower : ∀ c ∈ hrp, isUpper c = false

section RoundTrip

variable {hrp : Bytes} {values : List UInt8}

theorem decode_encode (hhrp : IsLowerHrp hrp) (hvalues : ∀ v ∈ values, v < 32)
    (hlen : hrp.length + 1 + values.length + 6 ≤ 90) :
    ∃ str, encode hrp values = some str ∧ decode str = (hrp, values) := by
  have hdata : ∀ v ∈ values ++ createChecksum hrp values, v < 32 :=
    List.forall_mem_append.mpr ⟨hvalues, createChecksum_lt hrp values⟩
  have hcount : (createChecksum hrp values).length = 6 := by simp [createChecksum]
  have hencode : encode hrp values =
      some (hrp ++ one :: (values ++ createChecksum hrp values).map charOf) := by
    apply if_neg
    simpa using hhrp.lower
  have hchars : ∀ c ∈ hrp ++ one :: (values ++ createChecksum hrp values).map charOf,
      33 ≤ c ∧ c ≤ 126 ∧ isUpper c = false := by
    intro c hc
    rcases List.mem_append.mp hc with hc | hc
    · exact ⟨(hhrp.range c hc).1, (hhrp.range c hc).2, hhrp.lower c hc⟩
    · rcases List.mem_cons.mp hc with rfl | hc
      · decide
      · obtain ⟨v, hv, rfl⟩ := List.mem_map.mp hc
        obtain ⟨-, hupper, hlow, hhigh, -⟩ := charOf_spec (hdata v hv)
        exact ⟨hlow, hhigh, hupper⟩
  have hone : one ∉ (values ++ createChecksum hrp values).map charOf := by
    intro hmem
    obtain ⟨v, hv, heq⟩ := List.mem_map.mp hmem
    exact (charOf_spec (hdata v hv)).2.2.2.2 heq
  have hsymbols : ((values ++ createChecksum hrp values).map charOf).map symbolOf =
      values ++ createChecksum hrp values := by
    rw [List.map_map]
    conv_rhs => rw [← List.map_id (values ++ createChecksum hrp values)]
    exact List.map_congr_left fun v hv => symbolOf_charOf (hdata v hv)
  have hlower : hrp.map lowerCase = hrp := by
    conv_rhs => rw [← List.map_id hrp]
    exact List.map_congr_left fun c hc => lowerCase_eq (hhrp.lower c hc)
  have hvalid : ¬ ((values ++ createChecksum hrp values).map charOf).any (rev · = -1) = true := by
    rw [List.any_eq_true]
    rintro ⟨c, hc, hinvalid⟩
    obtain ⟨v, hv, rfl⟩ := List.mem_map.mp hc
    rw [decide_eq_true_eq, (charOf_spec (hdata v hv)).1] at hinvalid
    omega
  have hpos := List.length_pos_of_ne_nil hhrp.ne_nil
  have hsize : (hrp ++ one :: (values ++ createChecksum hrp values).map charOf).length =
      hrp.length + 1 + values.length + 6 := by
    simp [hcount]
    omega
  obtain ⟨lower, hscan⟩ := scanCase_eq hchars false false
  refine ⟨_, hencode, ?_⟩
  simp only [decode, decodeFull, hscan, Option.bind_eq_bind, Option.bind_some, Bool.and_false,
    Bool.false_eq_true, if_false, rfind_append hrp hone, decodeAt_append]
  rw [if_neg (by omega), if_neg hvalid, hsymbols, hlower,
    verifyChecksum_createChecksum hrp hvalues, if_pos rfl, List.length_append, hcount,
    Nat.add_sub_cancel, List.take_left]
  rfl

/-- A valid string in which some of at most six consecutive characters of the data part are replaced
by others of the alphabet and of the same case. -/
theorem decode_burst {upper : Bool} {pre w w' post : Bytes}
    (hvalid : decode (pre ++ w ++ post) ≠ ([], []))
    (hcase : ∀ c ∈ pre ++ w ++ post, inCase upper c = true) (hpre : one ∈ pre)
    (hdata : one ∉ w ++ post) (hwindow : w.length ≤ 6) (hlen : w'.length = w.length) (hne : w' ≠ w)
    (hw' : ∀ c ∈ w', rev c ≠ -1 ∧ inCase upper c = true) :
    decode (pre ++ w' ++ post) = ([], []) := by
  -- the last separator before the window
  obtain ⟨q, p, hsplit, hq⟩ := List.eq_append_cons_of_mem (List.mem_reverse.mpr hpre)
  obtain rfl : pre = p.reverse ++ one :: q.reverse := by
    rw [← List.reverse_reverse pre, hsplit]
    simp
  have hq : one ∉ q.reverse := fun h => hq (List.mem_reverse.mp h)
  have hshape : ∀ x : Bytes, (p.reverse ++ one :: q.reverse) ++ x ++ post =
      p.reverse ++ one :: (q.reverse ++ x ++ post) := by
    intro x
    simp
  rw [hshape] at hvalid hcase ⊢
  have hone' : one ∉ w' := fun h => absurd rfl (hw' one h).1
  rw [List.mem_append, not_or] at hdata
  have hnotin : ∀ x : Bytes, one ∉ x → one ∉ q.reverse ++ x ++ post := by
    intro x hx
    simp only [List.mem_append, not_or]
    exact ⟨⟨hq, hx⟩, hdata.2⟩
  cases hfull : decodeFull (p.reverse ++ one :: (q.reverse ++ w ++ post)) with
  | none => exact absurd (by rw [decode, hfull]; rfl) hvalid
  | some r =>
    obtain ⟨hrev, hverify⟩ := verify_of_decodeFull (hnotin w hdata.1) hfull
    cases hfull' : decodeFull (p.reverse ++ one :: (q.reverse ++ w' ++ post)) with
    | none => rw [decode, hfull']; rfl
    | some r' =>
      exfalso
      obtain ⟨hrev', hverify'⟩ := verify_of_decodeFull (hnotin w' hone') hfull'
      have hlt : ∀ x : Bytes, (∀ c ∈ x, rev c ≠ -1) → ∀ v ∈ x.map symbolOf, v < 32 := by
        intro x hx v hv
        obtain ⟨c, hc, rfl⟩ := List.mem_map.mp hv
        exact (symbolOf_spec (hx c hc)).1
      simp only [List.forall_mem_append] at hrev
      obtain ⟨⟨hrevq, hrevw⟩, hrevpost⟩ := hrev
      have hcasew : ∀ c ∈ w, inCase upper c = true := fun c hc => hcase c (by simp [hc])
      have hsymbols : w.map symbolOf ≠ w'.map symbolOf := by
        intro heq
        apply hne
        have hback : ∀ x : Bytes, (∀ c ∈ x, rev c ≠ -1 ∧ inCase upper c = true) →
            (x.map symbolOf).map (caseChar upper) = x := by
          intro x hx
          rw [List.map_map]
          conv_rhs => rw [← List.map_id x]
          exact List.map_congr_left fun c hc => (symbolOf_spec (hx c hc).1).2 upper (hx c hc).2
        rw [← hback w' hw', ← heq, hback w fun c hc => ⟨hrevw c hc, hcasew c hc⟩]
      simp only [List.map_append] at hverify hverify'
      have hburst := verifyChecksum_burst (hlt _ hrevq) (hlt _ hrevw)
        (hlt _ fun c hc => (hw' c hc).1) (hlt _ hrevpost) (by simpa using hlen.symm)
        (by simpa using hwindow) hsymbols hverify
      rw [hburst] at hverify'
      cases hverify'

/-- Encoding is undone by decoding, and bursts of up to six characters are detected. -/
theorem bech32_roundTrip_and_burst :
    (∀ (hrp : Bytes) (values : List UInt8), IsLowerHrp hrp → (∀ v ∈ values, v < 32) →
      hrp.length + 1 + values.length + 6 ≤ 90 →
      ∃ str, encode hrp values = some str ∧ decode str = (hrp, values)) ∧
    ∀ (upper : Bool) (pre w w' post : Bytes), decode (pre ++ w ++ post) ≠ ([], []) →
      (∀ c ∈ pre ++ w ++ post, inCase upper c = true) → one ∈ pre → one ∉ w ++ post →
      w.length ≤ 6 → w'.length = w.length → w' ≠ w →
      (∀ c ∈ w', rev c ≠ -1 ∧ inCase upper c = true) →
      decode (pre ++ w' ++ post) = ([], []) :=
  ⟨fun _ _ hhrp hvalues hlen => decode_encode hhrp hvalues hlen,
    fun _ _ _ _ _ hvalid hcase hpre hdata hwindow hlen hne hw' =>
      decode_burst hvalid hcase hpre hdata hwindow hlen hne hw'⟩

/-- The string "bc1qw5l8r0ex45yl" for the readable part "bc" and seven values, and the same with a
burst of six characters of data and checksum replaced. -/
theorem bech32_roundTrip_sample :
    (∃ str, encode [0x62, 0x63] [0, 14, 20, 31, 7, 3, 15] = some str ∧
      decode str = ([0x62, 0x63], [0, 14, 20, 31, 7, 3, 15])) ∧
      decode ([0x62, 0x63, 0x31, 0x71, 0x77, 0x35] ++ [0x71, 0x71, 0x71, 0x71, 0x71, 0x71] ++
        [0x34, 0x35, 0x79, 0x6c]) = ([], []) :=
  ⟨bech32_roundTrip_and_burst.1 [0x62, 0x63] [0, 14, 20, 31, 7, 3, 15]
      ⟨by decide +kernel, by decide +kernel, by decide +kernel⟩ (by decide +kernel)
      (by decide +kernel),
    bech32_roundTrip_and_burst.2 false [0x62, 0x63, 0x31, 0x71, 0x77, 0x35]
      [0x6c, 0x38, 0x72, 0x30, 0x65, 0x78] [0x71, 0x71, 0x71, 0x71, 0x71, 0x71]
      [0x34, 0x35, 0x79, 0x6c] (by decide +kernel) (by decide +kernel) (by decide +kernel)
      (by decide +kernel) (by decide +kernel) rfl (by decide +kernel) (by decide +kernel)⟩

end RoundTrip

end Verium.Bech32
