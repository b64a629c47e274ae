import Verium.Coins.Compressor
import Verium.Consensus.Values

/-!
Coins are read back as they were written. The six special scripts are told apart by the first
byte, and from the plain ones by the number that stands there; an amount is recovered from its
digits and its exponent; the height and the coinbase flag from their common number.
-/

namespace Verium

open Lib

/-- Dropping the y coordinate of a fully valid uncompressed key is undone by `Decompress`. -/
def PubKeyCode.Decompresses (code : PubKeyCode) : Prop :=
  ∀ pubkey : Bytes, pubkey.length = 65 → pubkey.head? = some 0x04 →
    code.isFullyValid pubkey = true →
    code.decompress ((0x02 ||| (pubkey.getD 64 0 &&& 0x01)) :: (pubkey.drop 1).take 32) =
      some pubkey

/-- What `AddCoin` stores. -/
structure Coin.Storable (c : Coin) : Prop where
  spendable : isUnspendable c.out.scriptPubKey = false
  nHeight : c.nHeight < 2 ^ 31
  nonneg : 0 ≤ c.out.nValue.toInt
  nValue : c.out.nValue.toInt ≤ 2 * 10 ^ 18

/-- A script is its fixed bytes around what stands between them. -/
theorem eq_of_template {script : Bytes} (front back : Bytes) (n : Nat)
    (hlength : script.length = front.length + n + back.length)
    (hfront : ∀ fixed ∈ front.zipIdx, script[fixed.2]? = some fixed.1)
    (hback : ∀ fixed ∈ back.zipIdx, script[front.length + n + fixed.2]? = some fixed.1) :
    script = front ++ ((script.drop front.length).take n ++ back) := by
  have htake : script.take front.length = front := by
    apply List.ext_getElem?
    intro i
    rw [List.getElem?_take]
    split
    next hi =>
      rw [List.getElem?_eq_getElem hi]
      exact hfront (front[i], i) (List.mk_mem_zipIdx_iff_getElem?.mpr (List.getElem?_eq_getElem hi))
    next hi => exact (List.getElem?_eq_none (Nat.not_lt.mp hi)).symm
  have hdrop : script.drop (front.length + n) = back := by
    apply List.ext_getElem?
    intro i
    rw [List.getElem?_drop]
    rcases Nat.lt_or_ge i back.length with hi | hi
    · rw [List.getElem?_eq_getElem hi]
      exact hback (back[i], i) (List.mk_mem_zipIdx_iff_getElem?.mpr (List.getElem?_eq_getElem hi))
    · rw [List.getElem?_eq_none (by omega), List.getElem?_eq_none hi]
  calc
    script = script.take front.length ++ script.drop front.length :=
      (List.take_append_drop _ _).symm
    _ = front ++ ((script.drop front.length).take n ++ (script.drop front.length).drop n) := by
      rw [htake, List.take_append_drop]
    _ = front ++ ((script.drop front.length).take n ++ back) := by
      rw [List.drop_drop, hdrop]

theorem isToKeyID_eq_some {script : CScript} {hash : Bytes} (h : isToKeyID script = some hash) :
    hash.length = 20 ∧ script = Opcode.opDup :: Opcode.opHash160 :: 20 ::
      (hash ++ [Opcode.opEqualVerify, Opcode.opCheckSig]) := by
  unfold isToKeyID at h
  split at h
  next hform =>
    obtain ⟨hlength, h0, h1, h2, h23, h24⟩ := hform
    cases h
    refine ⟨by simp [hlength], ?_⟩
    exact eq_of_template [Opcode.opDup, Opcode.opHash160, 20]
      [Opcode.opEqualVerify, Opcode.opCheckSig] 20 hlength (by simp [h0, h1, h2])
      (by simp [h23, h24])
  next => cases h

theorem isToScriptID_eq_some {script : CScript} {hash : Bytes}
    (h : isToScriptID script = some hash) :
    hash.length = 20 ∧
      script = Opcode.opHash160 :: 20 :: (hash ++ [Opcode.opEqual]) := by
  unfold isToScriptID at h
  split at h
  next hform =>
    obtain ⟨hlength, h0, h1, h22⟩ := hform
    cases h
    refine ⟨by simp [hlength], ?_⟩
    exact eq_of_template [Opcode.opHash160, 20] [Opcode.opEqual] 20 hlength (by simp [h0, h1])
      (by simp [h22])
  next => cases h

/-- The two forms of a public key that a script can pay to. -/
theorem isToPubKey_eq_some {code : PubKeyCode} {script : CScript} {pubkey : Bytes}
    (h : isToPubKey code script = some pubkey) :
    (pubkey.length = 33 ∧ script = 33 :: (pubkey ++ [Opcode.opCheckSig]) ∧
      (pubkey.head? = some 0x02 ∨ pubkey.head? = some 0x03)) ∨
    (pubkey.length = 65 ∧ script = 65 :: (pubkey ++ [Opcode.opCheckSig]) ∧
      pubkey.head? = some 0x04 ∧ code.isFullyValid pubkey = true) := by
  unfold isToPubKey at h
  split at h
  next hform =>
    obtain ⟨hlength, h0, h34, h1⟩ := hform
    cases h
    have hhead : ((script.drop 1).take 33).head? = script[1]? := by
      simp [List.head?_take]
    left
    refine ⟨by simp [hlength], ?_, by rwa [hhead]⟩
    exact eq_of_template [33] [Opcode.opCheckSig] 33 hlength (by simp [h0]) (by simp [h34])
  next =>
    split at h
    next hform =>
      obtain ⟨hlength, h0, h66, h1⟩ := hform
      dsimp only at h
      split at h
      next hvalid =>
        cases h
        have hhead : ((script.drop 1).take 65).head? = script[1]? := by
          simp [List.head?_take]
        right
        refine ⟨by simp [hlength], ?_, by rwa [hhead], hvalid⟩
        exact eq_of_template [65] [Opcode.opCheckSig] 65 hlength (by simp [h0]) (by simp [h66])
      next => cases h
    next => cases h

section Scripts

variable {code : PubKeyCode} {script : CScript}

/-- A compressed script begins with its number, and is decompressed to what it was. -/
def Restored (code : PubKeyCode) (script : CScript) (compr : Bytes) : Prop :=
  ∃ k vch, k < nSpecialScripts ∧ compr = UInt8.ofNat k :: vch ∧
    vch.length = getSpecialScriptSize k ∧ decompressScript code k vch = .ok (some script)

theorem parity_cases (b : UInt8) : b &&& 0x01 = 0 ∨ b &&& 0x01 = 1 := by
  have hmod : (b &&& 0x01).toNat = b.toNat % 2 := by
    rw [UInt8.toNat_and]
    exact Nat.and_one_is_mod b.toNat
  rcases Nat.mod_two_eq_zero_or_one b.toNat with h | h
  · left
    exact UInt8.toNat_inj.mp (hmod.trans h)
  · right
    exact UInt8.toNat_inj.mp (hmod.trans h)

theorem compressPubKey_restored (hcode : code.Decompresses) {pubkey compr : Bytes}
    (hkey : isToPubKey code script = some pubkey) (h : compressPubKey pubkey = some compr) :
    Restored code script compr := by
  rcases isToPubKey_eq_some hkey with ⟨hlength, rfl, hhead⟩ | ⟨hlength, rfl, hhead, hvalid⟩
  · obtain ⟨first, x, rfl⟩ := List.exists_cons_of_length_eq_add_one hlength
    have hx : x.length = 32 := Nat.succ.inj hlength
    have hwhole : x.take 32 = x := List.take_of_length_le hx.le
    rcases hhead with hhead | hhead
    · obtain rfl : first = 0x02 := Option.some.inj hhead
      obtain rfl : 0x02 :: x.take 32 = compr := Option.some.inj h
      refine ⟨2, x.take 32, by decide, rfl, by rw [hwhole, hx]; rfl, ?_⟩
      simp only [decompressScript, hwhole]
      rfl
    · obtain rfl : first = 0x03 := Option.some.inj hhead
      obtain rfl : 0x03 :: x.take 32 = compr := Option.some.inj h
      refine ⟨3, x.take 32, by decide, rfl, by rw [hwhole, hx]; rfl, ?_⟩
      simp only [decompressScript, hwhole]
      rfl
  · have hundone := hcode pubkey hlength hhead hvalid
    have hx : ((pubkey.drop 1).take 32).length = 32 := by simp [hlength]
    have hwhole : ((pubkey.drop 1).take 32).take 32 = (pubkey.drop 1).take 32 :=
      List.take_of_length_le hx.le
    unfold compressPubKey at h
    rw [hhead] at h
    obtain rfl := Option.some.inj h
    -- the number of the script is two more than the first byte of the compressed key
    rcases parity_cases (pubkey.getD 64 0) with hparity | hparity
    · rw [hparity] at hundone ⊢
      refine ⟨4, (pubkey.drop 1).take 32, by decide, rfl, hx, ?_⟩
      simp only [decompressScript, decompressPubKeyScript, hwhole]
      rw [show UInt8.ofNat (4 - 2) = 0x02 ||| 0 from rfl, hundone]
      exact congrArg (· >>= _) (assertThat_of hlength)
    · rw [hparity] at hundone ⊢
      refine ⟨5, (pubkey.drop 1).take 32, by decide, rfl, hx, ?_⟩
      simp only [decompressScript, decompressPubKeyScript, hwhole]
      rw [show UInt8.ofNat (5 - 2) = 0x02 ||| 1 from rfl, hundone]
      exact congrArg (· >>= _) (assertThat_of hlength)

theorem compressScript_restored (hcode : code.Decompresses) {compr : Bytes}
    (h : compressScript code script = some compr) : Restored code script compr := by
  unfold compressScript at h
  split at h
  next hash hkeyID =>
    obtain ⟨hlength, rfl⟩ := isToKeyID_eq_some hkeyID
    obtain rfl := Option.some.inj h
    refine ⟨0, hash, by decide, rfl, hlength, ?_⟩
    simp only [decompressScript, List.take_of_length_le hlength.le]
  next =>
    split at h
    next hash hscriptID =>
      obtain ⟨hlength, rfl⟩ := isToScriptID_eq_some hscriptID
      obtain rfl := Option.some.inj h
      refine ⟨1, hash, by decide, rfl, hlength, ?_⟩
      simp only [decompressScript, List.take_of_length_le hlength.le]
    next =>
      obtain ⟨pubkey, hkey, hcompr⟩ := Option.bind_eq_some_iff.mp h
      exact compressPubKey_restored hcode hkey hcompr

theorem Restored.reads {compr : Bytes} (h : Restored code script compr) :
    Reads (unserializeScript code) compr script := by
  obtain ⟨k, vch, hk, rfl, hlength, hscript⟩ := h
  have hbyte : writeVarInt 32 k = [UInt8.ofNat k] := by
    have hall : ∀ k < nSpecialScripts, writeVarInt 32 k = [UInt8.ofNat k] := by decide
    exact hall k hk
  have hnumber : Reads (readVarInt 32) [UInt8.ofNat k] k := by
    rw [← hbyte]
    exact reads_varInt (by decide) (lt_trans hk (by decide))
  change Reads _ ([UInt8.ofNat k] ++ vch) _
  refine hnumber.bind ?_
  rw [if_pos hk, ← List.append_nil vch]
  refine (Reads.readExact endOfData hlength).bind ?_
  exact (Reads.lift hscript).bind (Reads.pure script)

/-- The number in front of a plain script is larger than those of the special ones. -/
theorem reads_plainScript (hlength : script.length ≤ maxScriptSize) :
    Reads (unserializeScript code)
      (writeVarInt 32 ((script.length + nSpecialScripts) % 2 ^ 32) ++ script) script := by
  have hsmall : script.length + nSpecialScripts < 2 ^ 32 :=
    lt_of_le_of_lt (Nat.add_le_add_right hlength _) (by decide)
  rw [Nat.mod_eq_of_lt hsmall]
  refine (reads_varInt (by decide) hsmall).bind ?_
  rw [if_neg (by omega), Nat.add_sub_cancel]
  unfold readPlainScript
  rw [if_neg (Nat.not_lt.mpr hlength)]
  exact Reads.readExact endOfData rfl

theorem reads_script (hcode : code.Decompresses) (hspendable : isUnspendable script = false) :
    Reads (unserializeScript code) (serializeScript code script) script := by
  unfold serializeScript
  split
  next compr hcompr => exact (compressScript_restored hcode hcompr).reads
  next =>
    apply reads_plainScript
    simp only [isUnspendable, Bool.or_eq_false_iff, decide_eq_false_iff_not, not_lt] at hspendable
    exact hspendable.2

end Scripts

theorem dropZeros_spec (left n e : Nat) :
    (dropZeros left n e).1 * 10 ^ (dropZeros left n e).2 = n * 10 ^ e ∧
    (dropZeros left n e).2 ≤ e + left ∧
    ((dropZeros left n e).2 < e + left → (dropZeros left n e).1 % 10 ≠ 0) := by
  induction left generalizing n e with
  | zero => exact ⟨rfl, le_rfl, fun h => absurd h (lt_irrefl _)⟩
  | succ left ih =>
    simp only [dropZeros]
    split
    next hzero =>
      obtain ⟨hvalue, hle, hdigit⟩ := ih (n / 10) (e + 1)
      refine ⟨?_, by omega, fun h => hdigit (by omega)⟩
      rw [hvalue, pow_succ, mul_comm (10 ^ e), ← mul_assoc,
        Nat.div_mul_cancel (Nat.dvd_of_mod_eq_zero hzero)]
    next hdigit => exact ⟨rfl, by omega, fun _ => hdigit⟩

theorem appendZeros_mod {e n : Nat} (h : n < 2 ^ 64) : appendZeros e n = n * 10 ^ e % 2 ^ 64 := by
  induction e generalizing n with
  | zero => rw [appendZeros, pow_zero, mul_one, Nat.mod_eq_of_lt h]
  | succ e ih =>
    rw [appendZeros, ih (Nat.mod_lt _ (by norm_num)), Nat.mod_mul_mod, pow_succ]
    ring_nf

/-- The amounts whose code fits in 64 bits: the code of an amount that does not end in a zero is
about nine times the amount. -/
def CodeFits (n : Nat) : Prop := n % 10 = 0 ∨ n ≤ 2049638230412172402

/-- Where the code fits nothing wraps around. -/
theorem compressAmount_restored {n : Nat} (hn : n < 2 ^ 63) (hfits : CodeFits n) :
    ∃ x, compressAmount n = .ok x ∧ x < 2 ^ 64 ∧ decompressAmount x = n := by
  unfold CodeFits at hfits
  unfold compressAmount
  split
  next hzero => exact ⟨0, rfl, by norm_num, hzero.symm⟩
  next hpos =>
    obtain ⟨hvalue, hle, hdigit⟩ := dropZeros_spec 9 n 0
    generalize dropZeros 9 n 0 = r at hvalue hle hdigit
    obtain ⟨m, e⟩ := r
    dsimp only at hvalue hle hdigit ⊢
    rw [pow_zero, mul_one] at hvalue
    have hm : m ≠ 0 := by
      rintro rfl
      exact hpos (by omega)
    have hmn : m ≤ n := by
      rw [← hvalue]
      exact Nat.le_mul_of_pos_right m (by positivity)
    have hback : appendZeros e m = n := by
      rw [appendZeros_mod (by omega), hvalue, Nat.mod_eq_of_lt (by omega)]
    -- a zero that was dropped leaves at most a tenth of the amount
    have hsmall : m * 10 ≤ n ∨ e = 0 ∧ m ≤ 2049638230412172402 := by
      cases e with
      | zero =>
        have := hdigit (by omega)
        right
        omega
      | succ e =>
        left
        rw [← hvalue, pow_succ, mul_comm (10 ^ e), ← mul_assoc]
        exact Nat.le_mul_of_pos_right _ (by positivity)
    split
    next he =>
      have hd := hdigit (by omega)
      have hwrap : (1 + (m / 10 * 9 + m % 10 - 1) * 10 + e) % 2 ^ 64 =
          1 + (m / 10 * 9 + m % 10 - 1) * 10 + e := Nat.mod_eq_of_lt (by omega)
      refine ⟨_, congrArg (· >>= _) (assertThat_of (by omega)), Nat.mod_lt _ (by norm_num), ?_⟩
      rw [hwrap]
      unfold decompressAmount
      rw [if_neg (by omega)]
      have hexp : (1 + (m / 10 * 9 + m % 10 - 1) * 10 + e - 1) % 10 = e := by omega
      have hrest : (1 + (m / 10 * 9 + m % 10 - 1) * 10 + e - 1) / 10 =
          m / 10 * 9 + m % 10 - 1 := by omega
      have hdigits : ((m / 10 * 9 + m % 10 - 1) / 9 * 10 +
          ((m / 10 * 9 + m % 10 - 1) % 9 + 1)) % 2 ^ 64 = m := by omega
      simp only [hexp, hrest, if_pos he, hdigits, hback]
    next he =>
      obtain rfl : e = 9 := by omega
      have hwrap : (1 + (m - 1) * 10 + 9) % 2 ^ 64 = 1 + (m - 1) * 10 + 9 :=
        Nat.mod_eq_of_lt (by omega)
      refine ⟨_, rfl, Nat.mod_lt _ (by norm_num), ?_⟩
      rw [hwrap]
      unfold decompressAmount
      rw [if_neg (by omega)]
      have hexp : (1 + (m - 1) * 10 + 9 - 1) % 10 = 9 := by omega
      have hrest : ((1 + (m - 1) * 10 + 9 - 1) / 10 + 1) % 2 ^ 64 = m := by omega
      simp only [hexp, hrest, if_neg he, hback]

theorem compressAmount_digit {n : Nat} (h : n % 10 ≠ 0) :
    compressAmount n = .ok ((1 + (n / 10 * 9 + n % 10 - 1) * 10) % 2 ^ 64) := by
  have hdrop : dropZeros 9 n 0 = (n, 0) := by simp [dropZeros, h]
  unfold compressAmount
  rw [if_neg (by omega), hdrop]
  exact congrArg (· >>= _) (assertThat_of (by omega))

/-- `10 ^ e - 1` is odd, so one amount at most is the distance `D` below its own product with
`10 ^ e`. -/
theorem eq_of_mul_pow_mod {e m D inv : Nat} (hm : m < 2 ^ 64)
    (hinv : (10 ^ e - 1) * inv % 2 ^ 64 = 1) (h : m * 10 ^ e % 2 ^ 64 = m + D) :
    m = D * inv % 2 ^ 64 := by
  have hpow : 10 ^ e - 1 + 1 = 10 ^ e := Nat.sub_add_cancel (Nat.one_le_pow _ _ (by norm_num))
  have hdiv := Nat.div_add_mod (m * 10 ^ e) (2 ^ 64)
  have hdistance : (10 ^ e - 1) * m = D + 2 ^ 64 * (m * 10 ^ e / 2 ^ 64) := by
    have hsplit : m * 10 ^ e = (10 ^ e - 1) * m + m := by
      rw [← hpow, Nat.add_sub_cancel]
      ring
    omega
  calc
    m = 1 * m % 2 ^ 64 := by rw [one_mul, Nat.mod_eq_of_lt hm]
    _ = (10 ^ e - 1) * inv * m % 2 ^ 64 := by rw [← Nat.mod_mul_mod ((10 ^ e - 1) * inv), hinv]
    _ = (D * inv + 2 ^ 64 * (m * 10 ^ e / 2 ^ 64 * inv)) % 2 ^ 64 := by
      rw [mul_right_comm, hdistance]
      ring_nf
    _ = D * inv % 2 ^ 64 := Nat.add_mul_mod_self_left _ _ _

/-- The amount that reads as itself at one of the two distances lies above the range. -/
theorem mul_pow_mod_ne {n e m D inv : Nat} (hn : n < 2 ^ 63) (hm : m < 2 ^ 64)
    (hdistance : n = m + D ∨ n = m + (D + 1)) (hinv : (10 ^ e - 1) * inv % 2 ^ 64 = 1)
    (hlarge : 2 ^ 63 ≤ D * inv % 2 ^ 64 + D ∧ 2 ^ 63 ≤ (D + 1) * inv % 2 ^ 64 + (D + 1)) :
    m * 10 ^ e % 2 ^ 64 ≠ n := by
  intro h
  rcases hdistance with rfl | rfl
  · have := eq_of_mul_pow_mod hm hinv h
    omega
  · have := eq_of_mul_pow_mod hm hinv h
    omega

/-- A code that has wrapped around reads as that of another amount. How often it did gives the
exponent that is read, and the distance to the amount that is read up to one. -/
theorem decompressAmount_wrapped {n : Nat} (hn : n < 2 ^ 63) (hfits : ¬ CodeFits n) :
    decompressAmount ((1 + (n / 10 * 9 + n % 10 - 1) * 10) % 2 ^ 64) ≠ n := by
  unfold CodeFits at hfits
  have hparts := Nat.div_add_mod (1 + (n / 10 * 9 + n % 10 - 1) * 10) (2 ^ 64)
  have hwraps : (1 + (n / 10 * 9 + n % 10 - 1) * 10) / 2 ^ 64 ∈ [1, 2, 3, 4] := by
    simp only [List.mem_cons, List.not_mem_nil, or_false]
    omega
  generalize (1 + (n / 10 * 9 + n % 10 - 1) * 10) / 2 ^ 64 = k at hparts hwraps
  generalize (1 + (n / 10 * 9 + n % 10 - 1) * 10) % 2 ^ 64 = x at hparts ⊢
  have hpos : x ≠ 0 := by omega
  have hread : ∀ e, (x - 1) % 10 = e → e < 9 → decompressAmount x =
      ((x - 1) / 10 / 9 * 10 + ((x - 1) / 10 % 9 + 1)) * 10 ^ e % 2 ^ 64 := by
    rintro e rfl he
    unfold decompressAmount
    rw [if_neg hpos]
    dsimp only
    rw [if_pos he, appendZeros_mod (Nat.mod_lt _ (by norm_num)), Nat.mod_mul_mod]
  simp only [List.mem_cons, List.not_mem_nil, or_false] at hwraps
  rcases hwraps with rfl | rfl | rfl | rfl
  · rw [hread 4 (by omega) (by norm_num)]
    exact mul_pow_mod_ne hn (by omega)
      (show _ ∨ n = _ + (2049638230412172402 + 1) by omega)
      (show _ * 13458245626333751279 % 2 ^ 64 = 1 by norm_num) (by norm_num)
  · rw [hread 8 (by omega) (by norm_num)]
    exact mul_pow_mod_ne hn (by omega)
      (show _ ∨ n = _ + (4099276460824344804 + 1) by omega)
      (show _ * 300153063250403071 % 2 ^ 64 = 1 by norm_num) (by norm_num)
  · rw [hread 2 (by omega) (by norm_num)]
    exact mul_pow_mod_ne hn (by omega)
      (show _ ∨ n = _ + (6148914691236517205 + 1) by omega)
      (show _ * 12670490878911611211 % 2 ^ 64 = 1 by norm_num) (by norm_num)
  · rw [hread 6 (by omega) (by norm_num)]
    exact mul_pow_mod_ne hn (by omega)
      (show _ ∨ n = _ + (8198552921648689607 + 1) by omega)
      (show _ * 1672254362768354751 % 2 ^ 64 = 1 by norm_num) (by norm_num)

/-- Amounts in the money range are read back exactly where their code fits. -/
theorem amount_roundTrip_iff {a : CAmount} (ha : moneyRange a = true) :
    (∃ x, compressAmount a.toUInt64.toNat = .ok x ∧ decompressAmount x = a.toUInt64.toNat ∧
      compressAmount (decompressAmount x) = .ok x) ↔ CodeFits a.toUInt64.toNat := by
  have hlt : a.toUInt64.toNat < 2 ^ 63 := by
    have hvalue := toNat_toUInt64 (moneyRange_iff.mp ha)
    have := a.toInt_lt
    omega
  constructor
  · rintro ⟨x, hx, hback, -⟩
    by_contra hfits
    have hdigit : a.toUInt64.toNat % 10 ≠ 0 := fun hzero => hfits (.inl hzero)
    rw [compressAmount_digit hdigit, Except.ok.injEq] at hx
    rw [← hx] at hback
    exact decompressAmount_wrapped hlt hfits hback
  · intro hfits
    obtain ⟨x, hx, -, hback⟩ := compressAmount_restored hlt hfits
    exact ⟨x, hx, hback, by rw [hback, hx]⟩

theorem largeAmount_roundTrip :
    moneyRange 2049638230412172402 = true ∧
      ∃ x, compressAmount (2049638230412172402 : CAmount).toUInt64.toNat = .ok x ∧
        decompressAmount x = (2049638230412172402 : CAmount).toUInt64.toNat ∧
        compressAmount (decompressAmount x) = .ok x :=
  ⟨by decide, (amount_roundTrip_iff (by decide)).mpr (.inr (by decide))⟩

/-- The next amount is read back as another one. -/
theorem largeAmount_notRestored :
    moneyRange 2049638230412172403 = true ∧
      compressAmount (2049638230412172403 : CAmount).toUInt64.toNat = .ok 5 ∧
      decompressAmount 5 = 10000 := by
  decide

section Coins

variable {code : PubKeyCode}

/-- The writer succeeds with bytes that the reader takes for the value. -/
def RoundTrip {α : Type} (write : α → Result Bytes) (read : StreamReader α) (a : α) : Prop :=
  ∃ b, write a = .ok b ∧ Reads read b a

theorem txOut_roundTrip (hcode : code.Decompresses) {c : Coin} (hc : c.Storable) :
    RoundTrip (compressTxOut code) (decompressTxOut code) c.out := by
  have hvalue := toNat_toUInt64 hc.nonneg
  have hbound := hc.nValue
  obtain ⟨nVal, hcompress, hfits, hrestored⟩ :=
    @compressAmount_restored c.out.nValue.toUInt64.toNat (by omega) (.inr (by omega))
  refine ⟨writeVarInt 64 nVal ++ serializeScript code c.out.scriptPubKey, ?_, ?_⟩
  · rw [compressTxOut, hcompress]
    rfl
  · refine (reads_varInt (by decide) hfits).bind ?_
    have hread := (reads_script hcode hc.spendable).map fun scriptPubKey =>
      (⟨(UInt64.ofNat (decompressAmount nVal)).toInt64, scriptPubKey⟩ : CTxOut)
    rw [hrestored, UInt64.ofNat_toNat, Int64.toInt64_toUInt64] at hread
    rw [hrestored, UInt64.ofNat_toNat, Int64.toInt64_toUInt64]
    exact hread

theorem Coin.Storable.nCode {c : Coin} (hc : c.Storable) :
    c.nCode < 2 ^ 32 ∧ c.nCode / 2 = c.nHeight ∧ (c.nCode &&& 1 ≠ 0 ↔ c.fCoinBase = true) := by
  have hheight := hc.nHeight
  have hcode : c.nCode = c.nHeight * 2 + if c.fCoinBase then 1 else 0 := by
    unfold Coin.nCode
    refine Nat.mod_eq_of_lt ?_
    split <;> omega
  rw [hcode, Nat.and_one_is_mod]
  cases c.fCoinBase with
  | false => simp; omega
  | true => simp; omega

theorem Coin.Storable.decoded {c : Coin} (hc : c.Storable) :
    (⟨c.out, c.nCode &&& 1 ≠ 0, c.nCode / 2⟩ : Coin) = c := by
  obtain ⟨-, hheight, hflag⟩ := hc.nCode
  rw [hheight]
  congr 1
  exact Bool.eq_iff_iff.mpr (decide_eq_true_iff.trans hflag)

theorem coin_roundTrip (hcode : code.Decompresses) {c : Coin} (hc : c.Storable) :
    RoundTrip (Coin.serialize code) (Coin.unserialize code) c := by
  obtain ⟨out, hout, hread⟩ := txOut_roundTrip hcode hc
  have hunspent : ¬ c.isSpent = true := by
    intro hspent
    have hnull : c.out.nValue = -1 := of_decide_eq_true hspent
    have hnonneg := hc.nonneg
    rw [hnull] at hnonneg
    exact absurd hnonneg (by decide)
  refine ⟨writeVarInt 32 c.nCode ++ out, ?_, ?_⟩
  · rw [Coin.serialize, assertThat_of hunspent, ok_bind, hout]
    rfl
  · refine (reads_varInt (by decide) hc.nCode.1).bind ?_
    have hmap := hread.map fun out => (⟨out, c.nCode &&& 1 ≠ 0, c.nCode / 2⟩ : Coin)
    rw [hc.decoded] at hmap
    simp only [Nat.shiftRight_eq_div_pow, pow_one]
    exact hmap

/-- The byte after the number is there, and is skipped, exactly if the height is not zero. -/
theorem reads_versionDummy (nHeight : Nat) :
    Reads (readVersionDummy nHeight) (if 0 < nHeight then [0] else []) 0 := by
  unfold readVersionDummy
  split
  · have hzero : Reads (readVarInt 32) (writeVarInt 32 0) 0 :=
      reads_varInt (by decide) (by decide)
    exact hzero
  · exact Reads.pure 0

theorem txInUndo_roundTrip (hcode : code.Decompresses) {c : Coin} (hc : c.Storable) :
    RoundTrip (serializeTxInUndo code) (unserializeTxInUndo code) c := by
  obtain ⟨out, hout, hread⟩ := txOut_roundTrip hcode hc
  refine ⟨writeVarInt 32 c.nCode ++ ((if 0 < c.nHeight then [0] else []) ++ out), ?_, ?_⟩
  · rw [serializeTxInUndo, hout]
    rfl
  · refine (reads_varInt (by decide) hc.nCode.1).bind ?_
    have hmap := hread.map fun out => (⟨out, c.nCode &&& 1 ≠ 0, c.nCode / 2⟩ : Coin)
    rw [hc.decoded] at hmap
    have hdummy := reads_versionDummy (c.nCode / 2)
    rw [hc.nCode.2.1] at hdummy
    rw [hc.nCode.2.1] at hmap ⊢
    exact hdummy.bind hmap

theorem txUndo_roundTrip (hcode : code.Decompresses) {vprevout : List Coin}
    (hcount : vprevout.length ≤ maxInputsPerBlock) (hall : ∀ c ∈ vprevout, c.Storable) :
    RoundTrip (serializeTxUndo code) (unserializeTxUndo code) vprevout := by
  have hwritten : ∀ c ∈ vprevout, ∃ b, serializeTxInUndo code c = .ok b ∧
      Reads (unserializeTxInUndo code) b c :=
    fun c hmem => txInUndo_roundTrip hcode (hall c hmem)
  choose! record hrecord using hwritten
  refine ⟨writeCompactSize vprevout.length ++ vprevout.flatMap record, ?_, ?_⟩
  · rw [serializeTxUndo, mapM_eq_ok fun c hmem => (hrecord c hmem).1, List.flatMap_def]
    rfl
  · have hsize : vprevout.length ≤ maxSize := le_trans hcount (by decide)
    refine (codec_readCompactSize.reads hsize).bind ?_
    refine (Reads.refuseIf (Nat.not_lt.mpr hcount)).bind (b := []) ?_
    exact Reads.readMany fun c hmem => (hrecord c hmem).2

/-- Each input of a transaction takes at least the bytes of the empty one. -/
theorem checkTransaction_vin_length {tx : CTransaction} {fCheckDuplicateInputs : Bool}
    (h : checkTransaction tx fCheckDuplicateInputs = .ok ()) :
    tx.vin.length ≤ maxInputsPerBlock := by
  simp only [checkTransaction, bind_eq_ok, rejectIf_eq_ok, not_lt] at h
  obtain ⟨-, -, -, -, -, hsize, -⟩ := h
  have hinputs := serVector_length_ge CTxIn.serialize 41 tx.vin (by
    intro txin _
    simp only [CTxIn.serialize, serBytes, List.length_append, COutPoint.serialize_length,
      serUInt32_length, writeCompactSize_length]
    have hsize : 1 ≤ getSizeOfCompactSize txin.scriptSig.length := by
      unfold getSizeOfCompactSize
      split_ifs <;> omega
    omega)
  simp only [CTransaction.getTotalSize, CTransaction.serialize, List.length_append,
    witnessScaleFactor, mul_one] at hsize
  rw [show maxInputsPerBlock = maxBlockWeight / 41 from by decide]
  exact (Nat.le_div_iff_mul_le (by decide)).mpr (by omega)

/-- What is stored of a coin is read back and leaves what follows: in the coins database, in an
undo record, and in the undo record of a transaction that passes `CheckTransaction`. -/
theorem storedCoins_readBack (code : PubKeyCode) (hcode : code.Decompresses) :
    (∀ c : Coin, c.Storable → ∃ b, c.serialize code = .ok b ∧
      ∀ r, Coin.unserialize code (b ++ r) = .ok (c, r)) ∧
    (∀ c : Coin, c.Storable → ∃ b, serializeTxInUndo code c = .ok b ∧
      ∀ r, unserializeTxInUndo code (b ++ r) = .ok (c, r)) ∧
    ∀ (tx : CTransaction) (fCheckDuplicateInputs : Bool) (vprevout : List Coin),
      checkTransaction tx fCheckDuplicateInputs = .ok () → vprevout.length = tx.vin.length →
      (∀ c ∈ vprevout, c.Storable) → ∃ b, serializeTxUndo code vprevout = .ok b ∧
        ∀ r, unserializeTxUndo code (b ++ r) = .ok (vprevout, r) := by
  refine ⟨fun c hc => coin_roundTrip hcode hc, fun c hc => txInUndo_roundTrip hcode hc, ?_⟩
  intro tx fCheckDuplicateInputs vprevout hcheck hlength hall
  have hcount := checkTransaction_vin_length hcheck
  rw [← hlength] at hcount
  exact txUndo_roundTrip hcode hcount hall

/-- The generator of the curve secp256k1, in its uncompressed form. Its second coordinate is
even. -/
def samplePubKey : Bytes :=
  let coordinate (n : Nat) : Bytes := (List.range 32).map fun i => UInt8.ofNat (n / 256 ^ (31 - i))
  0x04 :: (coordinate 0x79be667ef9dcbbac55a06295ce870b07029bfcdb2dce28d959f2815b16f81798 ++
    coordinate 0x483ada7726a3c4655da4fbfc0e1108a8fd17b448a68554199c47d08ffb10d4b8)

/-- The code of the curve on this point. -/
def samplePubKeyCode : PubKeyCode where
  isFullyValid pubkey := pubkey = samplePubKey
  decompress pubkey :=
    if pubkey = 0x02 :: (samplePubKey.drop 1).take 32 then some samplePubKey else none

/-- Pays to the key, in its uncompressed form. -/
def sampleKeyCoin : Coin := ⟨⟨150000000, 65 :: (samplePubKey ++ [Opcode.opCheckSig])⟩, true, 7⟩

theorem sampleKeyCoin_readBack :
    (∃ b, sampleKeyCoin.serialize samplePubKeyCode = .ok b ∧
      ∀ r, Coin.unserialize samplePubKeyCode (b ++ r) = .ok (sampleKeyCoin, r)) ∧
    ∃ b, serializeTxUndo samplePubKeyCode [sampleKeyCoin] = .ok b ∧
      ∀ r, unserializeTxUndo samplePubKeyCode (b ++ r) = .ok ([sampleKeyCoin], r) := by
  have hcode : samplePubKeyCode.Decompresses := by
    intro pubkey _ _ hvalid
    rw [of_decide_eq_true hvalid]
    decide +kernel
  have hcoin : sampleKeyCoin.Storable := by
    constructor <;> decide +kernel
  obtain ⟨hstored, -, hundo⟩ := storedCoins_readBack samplePubKeyCode hcode
  refine ⟨hstored sampleKeyCoin hcoin, ?_⟩
  exact hundo sampleCoinbase true [sampleKeyCoin] (by decide +kernel) rfl (by simpa using hcoin)

end Coins

end Verium
