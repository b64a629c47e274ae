import Verium.Lib.Outcome
import Verium.Primitives.Serialize

/-!
`CSipHasher` and the specialised hashers of `siphash.cpp`. The number of bytes is an `int`, and its
overflow ends the run. The bytes of a word are gathered by one `|=` each, which is the number they
denote, so it does not matter how a string is divided over calls or whether words are given whole.
-/

namespace Verium

open Lib

/-- The local variables `v0` to `v3`. -/
structure SipState where
  v0 : UInt64
  v1 : UInt64
  v2 : UInt64
  v3 : UInt64
deriving DecidableEq

inductive SipStop
  /-- `count` leaves the range of `int`. -/
  | overflow
  /-- `assert(count % 8 == 0)` -/
  | unaligned
deriving DecidableEq

def rotl (x b : UInt64) : UInt64 :=
  x <<< b ||| x >>> (64 - b)

def sipRound (v : SipState) : SipState :=
  let v0 := v.v0 + v.v1
  let v1 := rotl v.v1 13 ^^^ v0
  let v0 := rotl v0 32
  let v2 := v.v2 + v.v3
  let v3 := rotl v.v3 16 ^^^ v2
  let v0 := v0 + v3
  let v3 := rotl v3 21 ^^^ v0
  let v2 := v2 + v1
  let v1 := rotl v1 17 ^^^ v2
  let v2 := rotl v2 32
  ⟨v0, v1, v2, v3⟩

structure CSipHasher where
  v : SipState
  tmp : UInt64
  count : Nat

namespace CSipHasher

def new (k0 k1 : UInt64) : CSipHasher :=
  ⟨⟨0x736f6d6570736575 ^^^ k0, 0x646f72616e646f6d ^^^ k1, 0x6c7967656e657261 ^^^ k0,
    0x7465646279746573 ^^^ k1⟩, 0, 0⟩

/-- Two rounds around a word, as in both forms of `Write`. -/
def mix (data : UInt64) (v : SipState) : SipState :=
  let v := sipRound (sipRound { v with v3 := v.v3 ^^^ data })
  { v with v0 := v.v0 ^^^ data }

/-- `Write(uint64_t)` -/
def writeWord (h : CSipHasher) (data : UInt64) : Except SipStop CSipHasher := do
  rejectIf (h.count % 8 ≠ 0) .unaligned
  rejectIf (2 ^ 31 ≤ h.count + 8) .overflow
  return { h with v := mix data h.v, count := h.count + 8 }

/-- One round of the loop of `Write`. -/
def writeByte (h : CSipHasher) (byte : UInt8) : Except SipStop CSipHasher := do
  let t := h.tmp ||| byte.toUInt64 <<< UInt64.ofNat (8 * (h.count % 8))
  rejectIf (2 ^ 31 ≤ h.count + 1) .overflow
  let c := h.count + 1
  if c &&& 7 = 0 then return ⟨mix t h.v, 0, c⟩ else return ⟨h.v, t, c⟩

def write (h : CSipHasher) (data : Bytes) : Except SipStop CSipHasher :=
  data.foldlM writeByte h

/-- What `Finalize` and the specialised hashers do with the last word. -/
def finish (t : UInt64) (v : SipState) : UInt64 :=
  let v := mix t v
  let v := { v with v2 := v.v2 ^^^ 0xFF }
  let v := sipRound (sipRound (sipRound (sipRound v)))
  v.v0 ^^^ v.v1 ^^^ v.v2 ^^^ v.v3

def finalize (h : CSipHasher) : UInt64 :=
  finish (h.tmp ||| UInt64.ofNat h.count <<< 56) h.v

/-- Bytes joined by `|`, the first one shifted by `k` bytes. -/
def join (t : UInt64) (k : Nat) : Bytes → UInt64
  | [] => t
  | byte :: rest => join (t ||| byte.toUInt64 <<< UInt64.ofNat (8 * k)) (k + 1) rest

end CSipHasher

open CSipHasher

/-- The body that both specialised hashers have in common, up to the last word `d`. -/
def sipHashWords (k0 k1 : UInt64) (val : UInt256) (d : UInt64) : UInt64 :=
  let v := (new k0 k1).v
  let v := mix (getUint64 val 0) v
  let v := mix (getUint64 val 1) v
  let v := mix (getUint64 val 2) v
  let v := mix (getUint64 val 3) v
  finish d v

def sipHashUint256 (k0 k1 : UInt64) (val : UInt256) : UInt64 :=
  sipHashWords k0 k1 val ((4 : UInt64) <<< 59)

def sipHashUint256Extra (k0 k1 : UInt64) (val : UInt256) (extra : UInt32) : UInt64 :=
  sipHashWords k0 k1 val ((36 : UInt64) <<< 56 ||| extra.toUInt64)

namespace CSipHasher

/-- A call of one of the two forms of `Write`. -/
inductive Call
  | bytes (data : Bytes)
  | word (data : UInt64)

/-- The bytes that a call stands for. -/
def Call.data : Call → Bytes
  | bytes data => data
  | word data => serUInt64 data

def Call.run (h : CSipHasher) : Call → Except SipStop CSipHasher
  | bytes data => h.write data
  | word data => h.writeWord data

/-- After `n` bytes, words are given at multiples of eight bytes only. -/
def Aligned : (n : Nat) → List Call → Prop
  | _, [] => True
  | n, call :: calls =>
      (∀ data, call = .word data → n % 8 = 0) ∧ Aligned (n + call.data.length) calls

section Join

variable {t : UInt64} {k : Nat} {byte : UInt8} {data : Bytes}

theorem toNat_or_shift (hk : k < 8) (ht : t.toNat < 2 ^ (8 * k)) :
    (t ||| byte.toUInt64 <<< UInt64.ofNat (8 * k)).toNat = t.toNat + 2 ^ (8 * k) * byte.toNat := by
  have hbyte := byte.toNat_lt
  have hshift : (byte.toUInt64 <<< UInt64.ofNat (8 * k)).toNat = 2 ^ (8 * k) * byte.toNat := by
    have hle : 2 ^ (8 * k) * byte.toNat < 2 ^ 64 := by
      calc 2 ^ (8 * k) * byte.toNat < 2 ^ (8 * k) * 2 ^ 8 :=
            Nat.mul_lt_mul_of_pos_left hbyte (Nat.two_pow_pos _)
        _ = 2 ^ (8 * k + 8) := (Nat.pow_add 2 (8 * k) 8).symm
        _ ≤ 2 ^ 64 := Nat.pow_le_pow_right (by decide) (by omega)
    rw [UInt64.toNat_shiftLeft, UInt64.toNat_ofNat', UInt8.toNat_toUInt64, Nat.shiftLeft_eq,
      Nat.mod_eq_of_lt (show 8 * k < 2 ^ 64 by omega), Nat.mod_eq_of_lt (show 8 * k < 64 by omega),
      Nat.mul_comm, Nat.mod_eq_of_lt hle]
  rw [UInt64.toNat_or, hshift, Nat.or_comm, ← Nat.two_pow_add_eq_or_of_lt ht, Nat.add_comm]

theorem toNat_join (hk : k + data.length ≤ 8) (ht : t.toNat < 2 ^ (8 * k)) :
    (join t k data).toNat = t.toNat + 2 ^ (8 * k) * leNat data := by
  induction data generalizing t k with
  | nil => simp [join, leNat]
  | cons byte rest ih =>
    rw [List.length_cons] at hk
    have hbyte := byte.toNat_lt
    have hor := @toNat_or_shift t k byte (by omega) ht
    have hpow : 2 ^ (8 * (k + 1)) = 2 ^ (8 * k) * 256 := by
      rw [Nat.mul_succ, Nat.pow_add]
    rw [join, ih (by omega), hor, hpow, leNat]
    · ring
    · rw [hor, hpow]
      nlinarith

theorem toNat_join_leBytes {width : Nat} (hwidth : width ≤ 8) (n : Nat) :
    (join 0 0 (leBytes width n)).toNat = n % 256 ^ width := by
  rw [toNat_join (by simpa using hwidth) (by decide), leNat_leBytes]
  simp

theorem join_getUint64 (val : UInt256) {pos : Nat} (hpos : pos < 4) :
    join 0 0 (((serUInt256 val).drop (8 * pos)).take 8) = getUint64 val pos := by
  have hpow : 256 ^ (8 * pos) = 2 ^ (64 * pos) := by
    rw [show 64 * pos = 8 * (8 * pos) by omega, Nat.pow_mul 2 8]
  apply UInt64.toNat_inj.mp
  rw [serUInt256, take_drop_leBytes (by omega), toNat_join_leBytes le_rfl, hpow, getUint64,
    UInt64.toNat_ofNat', Nat.shiftRight_eq_div_pow]
  rfl

end Join

section Bytes

variable {h : CSipHasher} {data : Bytes}

theorem writeByte_eq (hroom : h.count + 1 < 2 ^ 31) (byte : UInt8) :
    h.writeByte byte = .ok (if (h.count + 1) % 8 = 0
      then ⟨mix (h.tmp ||| byte.toUInt64 <<< UInt64.ofNat (8 * (h.count % 8))) h.v, 0, h.count + 1⟩
      else ⟨h.v, h.tmp ||| byte.toUInt64 <<< UInt64.ofNat (8 * (h.count % 8)), h.count + 1⟩) := by
  have hand : (h.count + 1) &&& 7 = (h.count + 1) % 8 := Nat.and_two_pow_sub_one_eq_mod _ 3
  rw [writeByte, rejectIf_of_not (by omega), ok_bind]
  dsimp only
  rw [hand]
  split <;> rfl

theorem write_part (hdata : data ≠ []) (hroom : h.count + data.length < 2 ^ 31)
    (hpart : h.count % 8 + data.length ≤ 8) :
    h.write data = .ok (if h.count % 8 + data.length = 8
      then ⟨mix (join h.tmp (h.count % 8) data) h.v, 0, h.count + data.length⟩
      else ⟨h.v, join h.tmp (h.count % 8) data, h.count + data.length⟩) := by
  induction data generalizing h with
  | nil => exact absurd rfl hdata
  | cons byte rest ih =>
    rw [List.length_cons] at hroom hpart ⊢
    rw [write, List.foldlM_cons, writeByte_eq (by omega), ok_bind]
    cases rest with
    | nil =>
      have hend : (h.count + 1) % 8 = 0 ↔ h.count % 8 + 1 = 8 := by omega
      simp only [hend]
      rfl
    | cons next rest =>
      rw [List.length_cons] at hroom hpart ⊢
      have hmod : (h.count + 1) % 8 = h.count % 8 + 1 := by omega
      rw [if_neg (by omega)]
      refine (ih (List.cons_ne_nil _ _) ?_ ?_).trans ?_
      · simpa using by omega
      · simpa [hmod] using by omega
      · simp only [hmod, List.length_cons, join, Nat.add_assoc, Nat.add_comm 1]

theorem write_overflow (hdata : data ≠ []) (hfull : 2 ^ 31 ≤ h.count + data.length) :
    h.write data = .error .overflow := by
  induction data generalizing h with
  | nil => exact absurd rfl hdata
  | cons byte rest ih =>
    rw [List.length_cons] at hfull
    rw [write, List.foldlM_cons]
    by_cases hroom : h.count + 1 < 2 ^ 31
    · have hrest : rest ≠ [] := by
        rintro rfl
        simp at hfull
        omega
      rw [writeByte_eq hroom, ok_bind]
      refine ih hrest ?_
      split <;> simpa using by omega
    · rw [writeByte, rejectIf, if_pos (by omega)]
      rfl

theorem write_word (htmp : h.tmp = 0) (haligned : h.count % 8 = 0) (hdata : data.length = 8) :
    h.write data = h.writeWord (join 0 0 data) := by
  have hne : data ≠ [] := by
    rintro rfl
    cases hdata
  rw [writeWord, rejectIf_of_not (by omega), ok_bind]
  by_cases hroom : h.count + 8 < 2 ^ 31
  · rw [rejectIf_of_not (by omega), write_part hne (by omega) (by omega), if_pos (by omega), htmp,
      haligned, hdata]
    rfl
  · rw [write_overflow hne (by omega), rejectIf, if_pos (by omega)]
    rfl

end Bytes

section Calls

variable {h h' : CSipHasher}

/-- Nothing is pending at multiples of eight bytes. -/
def Settled (h : CSipHasher) : Prop :=
  h.count % 8 = 0 → h.tmp = 0

theorem writeByte_settled {byte : UInt8} (hok : h.writeByte byte = .ok h') :
    Settled h' ∧ h'.count = h.count + 1 := by
  have hroom : h.count + 1 < 2 ^ 31 := by
    obtain ⟨⟨⟩, hreject, -⟩ := bind_eq_ok.mp hok
    have hnot := rejectIf_eq_ok.mp hreject
    omega
  rw [writeByte_eq hroom] at hok
  split at hok
  · cases hok
    exact ⟨fun _ => rfl, rfl⟩
  · next hmod =>
    cases hok
    exact ⟨fun hzero => absurd hzero hmod, rfl⟩

theorem write_settled {data : Bytes} (hs : Settled h) (hok : h.write data = .ok h') :
    Settled h' ∧ h'.count = h.count + data.length := by
  induction data generalizing h with
  | nil =>
    cases hok
    exact ⟨hs, rfl⟩
  | cons byte rest ih =>
    obtain ⟨mid, hbyte, hrest⟩ := foldlM_cons_eq_ok.mp hok
    obtain ⟨hmid, hcount⟩ := writeByte_settled hbyte
    obtain ⟨hs', hcount'⟩ := ih hmid hrest
    exact ⟨hs', by rw [hcount', hcount, List.length_cons]; omega⟩

theorem Call.run_eq (hs : Settled h) {call : Call}
    (haligned : ∀ data, call = .word data → h.count % 8 = 0) : call.run h = h.write call.data := by
  cases call with
  | bytes data => rfl
  | word data =>
    have hjoin : join 0 0 (serUInt64 data) = data := by
      apply UInt64.toNat_inj.mp
      rw [serUInt64, toNat_join_leBytes le_rfl]
      exact Nat.mod_eq_of_lt data.toNat_lt
    have hzero := haligned data rfl
    have hlen : (serUInt64 data).length = 8 := leBytes_length 8 _
    rw [Call.run, Call.data, write_word (hs hzero) hzero hlen, hjoin]

theorem write_append (h : CSipHasher) (data rest : Bytes) :
    h.write (data ++ rest) = h.write data >>= fun h => h.write rest :=
  List.foldlM_append

theorem runs_eq (hs : Settled h) {calls : List Call} (haligned : Aligned h.count calls) :
    calls.foldlM Call.run h = h.write (calls.flatMap Call.data) := by
  induction calls generalizing h with
  | nil => rfl
  | cons call calls ih =>
    rw [List.foldlM_cons, List.flatMap_cons, write_append, Call.run_eq hs haligned.1]
    cases hcall : h.write call.data with
    | error e => rfl
    | ok mid =>
      obtain ⟨hmid, hcount⟩ := write_settled hs hcall
      exact ih hmid (hcount ▸ haligned.2)

theorem write_serUInt256 (k0 k1 : UInt64) (val : UInt256) :
    (new k0 k1).write (serUInt256 val) = .ok ⟨mix (getUint64 val 3) (mix (getUint64 val 2)
      (mix (getUint64 val 1) (mix (getUint64 val 0) (new k0 k1).v))), 0, 32⟩ := by
  have hlen : (serUInt256 val).length = 32 := leBytes_length 32 _
  have hword : ∀ (v : SipState) (n pos : Nat), n = 8 * pos → pos < 4 →
      CSipHasher.write ⟨v, 0, n⟩ (((serUInt256 val).drop (8 * pos)).take 8) =
        .ok ⟨mix (getUint64 val pos) v, 0, n + 8⟩ := by
    intro v n pos hn hpos
    have hpart : (((serUInt256 val).drop (8 * pos)).take 8).length = 8 := by
      rw [List.length_take, List.length_drop]
      omega
    rw [write_word rfl (by dsimp only; omega) hpart, join_getUint64 val hpos, writeWord,
      rejectIf_of_not (by dsimp only; omega), ok_bind, rejectIf_of_not (by dsimp only; omega)]
    rfl
  have hstep : ∀ pos, (serUInt256 val).drop (8 * pos) =
      ((serUInt256 val).drop (8 * pos)).take 8 ++ (serUInt256 val).drop (8 * (pos + 1)) := by
    intro pos
    rw [Nat.mul_succ, ← List.drop_drop, List.take_append_drop]
  have hall : serUInt256 val = (serUInt256 val).drop (8 * 0) := rfl
  have hend : (serUInt256 val).drop (8 * 4) = [] := List.drop_of_length_le (by omega)
  rw [hall, hstep 0, hstep 1, hstep 2, hstep 3, hend, List.append_nil]
  change CSipHasher.write ⟨(new k0 k1).v, 0, 0⟩ _ = _
  rw [write_append, hword _ _ 0 rfl (by decide), ok_bind, write_append,
    hword _ _ 1 rfl (by decide), ok_bind, write_append, hword _ _ 2 rfl (by decide), ok_bind,
    hword _ _ 3 rfl (by decide)]

end Calls

/-- The outcome does not depend on how a string is divided over calls, and the specialised hashers
give what the generic one gives. -/
theorem sipHash_calls (k0 k1 : UInt64) :
    (∀ calls, Aligned 0 calls → (calls.foldlM Call.run (new k0 k1)).map finalize =
      ((new k0 k1).write (calls.flatMap Call.data)).map finalize) ∧
    (∀ val, ((new k0 k1).write (serUInt256 val)).map finalize = .ok (sipHashUint256 k0 k1 val)) ∧
    ∀ val extra, ((new k0 k1).write (serUInt256 val ++ serUInt32 extra)).map finalize =
      .ok (sipHashUint256Extra k0 k1 val extra) := by
  refine ⟨?_, ?_, ?_⟩
  · intro calls haligned
    rw [runs_eq (fun _ => rfl) haligned]
  · intro val
    have hlast : (0 : UInt64) ||| UInt64.ofNat 32 <<< 56 = (4 : UInt64) <<< 59 := by decide
    rw [write_serUInt256, Except.map, finalize, hlast, sipHashUint256, sipHashWords]
  · intro val extra
    have hcount : UInt64.ofNat (32 + 4) = 36 := by decide
    have hlen : (serUInt32 extra).length = 4 := leBytes_length 4 _
    have hne : serUInt32 extra ≠ [] := by
      intro hnil
      rw [hnil] at hlen
      cases hlen
    have hjoin : join 0 0 (serUInt32 extra) = extra.toUInt64 := by
      apply UInt64.toNat_inj.mp
      rw [serUInt32, toNat_join_leBytes (by decide), UInt32.toNat_toUInt64]
      exact Nat.mod_eq_of_lt extra.toNat_lt
    rw [write_append, write_serUInt256, ok_bind, write_part hne (by dsimp only; omega)
      (by dsimp only; omega), if_neg (by dsimp only; omega)]
    dsimp only
    rw [hlen, show 32 % 8 = 0 from rfl, hjoin, Except.map, finalize, hcount, UInt64.or_comm,
      sipHashUint256Extra, sipHashWords]

/-- A word and three bytes. -/
theorem sipHash_calls_two :
    Aligned 0 [.word 0x0706050403020100, .bytes [8, 9, 10]] ∧
    ([Call.word 0x0706050403020100, .bytes [8, 9, 10]].foldlM Call.run (new 1 2)).map finalize =
      ((new 1 2).write (serUInt64 0x0706050403020100 ++ [8, 9, 10])).map finalize := by
  have haligned : Aligned 0 [.word 0x0706050403020100, .bytes [8, 9, 10]] :=
    ⟨fun _ _ => rfl, nofun, trivial⟩
  exact ⟨haligned, (sipHash_calls 1 2).1 _ haligned⟩

end CSipHasher

end Verium
