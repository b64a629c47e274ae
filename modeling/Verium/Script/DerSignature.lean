import Verium.Lib.DerInteger
import Verium.Script.ScriptNum

/-!
`IsValidSignatureEncoding` against the grammar of signatures. `readSignatureEncoding` makes the
tests of the source in their order, where a read outside the string has no result; the order of the
tests keeps every read inside. The strings that pass are the encodings of two integers and a hash
type byte, of at most 73 bytes.
-/

namespace Verium

open Lib

/-- `if (c) return false;` before the rest. -/
def exitIf (c : Prop) [Decidable c] (rest : Option Bool) : Option Bool :=
  if c then some false else rest

/-- Whether an element of `len` bytes at `i` starts with a zero it could do without. The bytes are
read only as far as the conjunction needs them. -/
def readPadding (sig : Bytes) (len i : Nat) : Option Bool :=
  if 1 < len then do
    let first ← sig[i]?
    if first = 0x00 then do
      let second ← sig[i + 1]?
      return second &&& 0x80 = 0
    else return false
  else return false

/-- `IsValidSignatureEncoding`, test by test. -/
def readSignatureEncoding (sig : Bytes) : Option Bool :=
  exitIf (sig.length < 9) <|
  exitIf (73 < sig.length) <| do
  let type ← sig[0]?
  exitIf (type ≠ 0x30) <| do
  let total ← sig[1]?
  exitIf (total.toNat ≠ sig.length - 3) <| do
  let lenR ← sig[3]?
  exitIf (sig.length ≤ 5 + lenR.toNat) <| do
  let lenS ← sig[5 + lenR.toNat]?
  exitIf (lenR.toNat + lenS.toNat + 7 ≠ sig.length) <| do
  let typeR ← sig[2]?
  exitIf (typeR ≠ 0x02) <|
  exitIf (lenR.toNat = 0) <| do
  let firstR ← sig[4]?
  exitIf (firstR &&& 0x80 ≠ 0) <| do
  let paddedR ← readPadding sig lenR.toNat 4
  exitIf (paddedR = true) <| do
  let typeS ← sig[lenR.toNat + 4]?
  exitIf (typeS ≠ 0x02) <|
  exitIf (lenS.toNat = 0) <| do
  let firstS ← sig[lenR.toNat + 6]?
  exitIf (firstS &&& 0x80 ≠ 0) <| do
  let paddedS ← readPadding sig lenS.toNat (lenR.toNat + 6)
  exitIf (paddedS = true) <|
  some true

section Reads

variable {sig : Bytes}

/-- The element of `len` bytes at `i` starts with a zero it could do without. -/
def Padded (sig : Bytes) (len i : Nat) : Prop :=
  1 < len ∧ sig.getD i 0 = 0x00 ∧ sig.getD (i + 1) 0 &&& 0x80 = 0

/-- The tests, each with the bytes it is about. -/
structure PassesTests (sig : Bytes) (lenR lenS : Nat) : Prop where
  low : 9 ≤ sig.length
  high : sig.length ≤ 73
  type : sig.getD 0 0 = 0x30
  total : (sig.getD 1 0).toNat = sig.length - 3
  lengthR : (sig.getD 3 0).toNat = lenR
  inside : 5 + lenR < sig.length
  lengthS : (sig.getD (5 + lenR) 0).toNat = lenS
  lengths : lenR + lenS + 7 = sig.length
  typeR : sig.getD 2 0 = 0x02
  emptyR : lenR ≠ 0
  signR : sig.getD 4 0 &&& 0x80 = 0
  paddedR : ¬ Padded sig lenR 4
  typeS : sig.getD (lenR + 4) 0 = 0x02
  emptyS : lenS ≠ 0
  signS : sig.getD (lenR + 6) 0 &&& 0x80 = 0
  paddedS : ¬ Padded sig lenS (lenR + 6)

theorem isValidSignatureEncoding_eq_true :
    isValidSignatureEncoding sig = true ↔
      PassesTests sig (sig.getD 3 0).toNat (sig.getD (5 + (sig.getD 3 0).toNat) 0).toNat := by
  simp only [isValidSignatureEncoding, Bool.and_eq_true, decide_eq_true_eq, Bool.not_eq_true',
    ← Bool.not_eq_true]
  constructor
  · rintro ⟨⟨⟨⟨⟨⟨⟨⟨⟨⟨⟨⟨⟨h1, h2⟩, h3⟩, h4⟩, h5⟩, h6⟩, h7⟩, h8⟩, h9⟩, h10⟩, h11⟩, h12⟩, h13⟩, h14⟩
    exact ⟨h1, h2, h3, h4, rfl, h5, rfl, h6, h7, h8, h9, fun h => h10 ⟨⟨h.1, h.2.1⟩, h.2.2⟩, h11,
      h12, h13, fun h => h14 ⟨⟨h.1, h.2.1⟩, h.2.2⟩⟩
  · intro h
    exact ⟨⟨⟨⟨⟨⟨⟨⟨⟨⟨⟨⟨⟨h.low, h.high⟩, h.type⟩, h.total⟩, h.inside⟩, h.lengths⟩, h.typeR⟩,
      h.emptyR⟩,
      h.signR⟩, fun hp => h.paddedR ⟨hp.1.1, hp.1.2, hp.2⟩⟩, h.typeS⟩, h.emptyS⟩, h.signS⟩,
      fun hp => h.paddedS ⟨hp.1.1, hp.1.2, hp.2⟩⟩

/-- The reads have a result, which is true exactly when `Q` holds. -/
def Answers (x : Option Bool) (Q : Prop) : Prop :=
  ∃ b, x = some b ∧ (b = true ↔ Q)

theorem Answers.exitIf {c Q : Prop} [Decidable c] {rest : Option Bool} (hQ : Q → ¬ c)
    (h : ¬ c → Answers rest Q) : Answers (exitIf c rest) Q := by
  unfold Verium.exitIf
  split
  next hc => exact ⟨false, rfl, by simpa using fun hq => hQ hq hc⟩
  next hc => exact h hc

theorem Answers.read {i : Nat} {f : UInt8 → Option Bool} {Q : Prop} (hi : i < sig.length)
    (h : Answers (f (sig.getD i 0)) Q) : Answers (sig[i]? >>= f) Q := by
  have hget : sig[i]? = some (sig.getD i 0) := by
    simp [List.getD_eq_getElem?_getD, List.getElem?_eq_getElem hi]
  rw [hget]
  exact h

theorem answers_readPadding {len i : Nat} (h : 1 < len → i + 1 < sig.length) :
    Answers (readPadding sig len i) (Padded sig len i) := by
  unfold readPadding
  split
  next hlen =>
    refine Answers.read (Nat.lt_of_succ_lt (h hlen)) ?_
    split
    next hzero =>
      refine Answers.read (h hlen) ⟨_, rfl, decide_eq_true_iff.trans ?_⟩
      exact ⟨fun hsign => ⟨hlen, hzero, hsign⟩, fun hp => hp.2.2⟩
    next hzero => exact ⟨false, rfl, by simpa using fun hp : Padded sig len i => hzero hp.2.1⟩
  next hlen => exact ⟨false, rfl, by simpa using fun hp : Padded sig len i => hlen hp.1⟩

theorem Answers.padding {len i : Nat} {f : Bool → Option Bool} {Q : Prop}
    (hi : 1 < len → i + 1 < sig.length) (h : ∀ b, (b = true ↔ Padded sig len i) → Answers (f b) Q) :
    Answers (readPadding sig len i >>= f) Q := by
  obtain ⟨b, hb, hiff⟩ := answers_readPadding hi
  rw [hb]
  exact h b hiff

/-- No read is outside the string, and the answer is that of the tests taken together. -/
theorem readSignatureEncoding_eq (sig : Bytes) :
    readSignatureEncoding sig = some (isValidSignatureEncoding sig) := by
  have hanswers : Answers (readSignatureEncoding sig) (PassesTests sig (sig.getD 3 0).toNat
      (sig.getD (5 + (sig.getD 3 0).toNat) 0).toNat) := by
    refine .exitIf (fun h => not_lt.mpr h.low) fun h9 => ?_
    refine .exitIf (fun h => not_lt.mpr h.high) fun h73 => ?_
    refine .read (by omega) ?_
    refine .exitIf (fun h => not_not.mpr h.type) fun htype => ?_
    refine .read (by omega) ?_
    refine .exitIf (fun h => not_not.mpr h.total) fun htotal => ?_
    refine .read (by omega) ?_
    refine .exitIf (fun h => not_le.mpr h.inside) fun hinside => ?_
    refine .read (by omega) ?_
    refine .exitIf (fun h => not_not.mpr h.lengths) fun hlengths => ?_
    refine .read (by omega) ?_
    refine .exitIf (fun h => not_not.mpr h.typeR) fun htypeR => ?_
    refine .exitIf (fun h => h.emptyR) fun hemptyR => ?_
    refine .read (by omega) ?_
    refine .exitIf (fun h => not_not.mpr h.signR) fun hsignR => ?_
    refine .padding (by omega) fun paddedR hpaddedR => ?_
    refine .exitIf (fun h => mt hpaddedR.mp h.paddedR) fun hR => ?_
    refine .read (by omega) ?_
    refine .exitIf (fun h => not_not.mpr h.typeS) fun htypeS => ?_
    refine .exitIf (fun h => h.emptyS) fun hemptyS => ?_
    refine .read (by omega) ?_
    refine .exitIf (fun h => not_not.mpr h.signS) fun hsignS => ?_
    refine .padding (by omega) fun paddedS hpaddedS => ?_
    refine .exitIf (fun h => mt hpaddedS.mp h.paddedS) fun hS => ?_
    refine ⟨true, rfl, iff_of_true rfl ?_⟩
    exact ⟨not_lt.mp h9, not_lt.mp h73, not_not.mp htype, not_not.mp htotal, rfl, not_le.mp hinside,
      rfl, not_not.mp hlengths, not_not.mp htypeR, hemptyR, not_not.mp hsignR, mt hpaddedR.mpr hR,
      not_not.mp htypeS, hemptyS, not_not.mp hsignS, mt hpaddedS.mpr hS⟩
  obtain ⟨b, hb, hiff⟩ := hanswers
  rw [hb, Option.some.injEq, Bool.eq_iff_iff, hiff, isValidSignatureEncoding_eq_true]

end Reads

section Grammar

variable {sig R S : Bytes} {hashType : UInt8}

/-- `<30> <total len> <02> <len R> <R> <02> <len S> <S> <hashtype>`. -/
def signatureBytes (R S : Bytes) (hashType : UInt8) : Bytes :=
  0x30 :: UInt8.ofNat (R.length + S.length + 4) :: 0x02 :: UInt8.ofNat R.length ::
    (R ++ 0x02 :: UInt8.ofNat S.length :: (S ++ [hashType]))

/-- The string is two integers and a hash type, within the limits on the size. -/
structure IsSignature (sig R S : Bytes) (hashType : UInt8) : Prop where
  layout : sig = signatureBytes R S hashType
  contentR : Der.IsContent R
  contentS : Der.IsContent S
  low : 9 ≤ sig.length
  high : sig.length ≤ 73

theorem length_signatureBytes : (signatureBytes R S hashType).length = R.length + S.length + 7 := by
  simp [signatureBytes]
  omega

/-- The tests on an element say that it is the contents of an integer. -/
theorem isContent_iff (before after : Bytes) :
    Der.IsContent R ↔ R.length ≠ 0 ∧
      (before ++ (R ++ after)).getD before.length 0 &&& 0x80 = 0 ∧
      ¬ Padded (before ++ (R ++ after)) R.length before.length := by
  have hat : ∀ i, (before ++ (R ++ after)).getD (before.length + i) 0 = (R ++ after).getD i 0 := by
    intro i
    rw [List.getD_append_right _ _ _ _ (Nat.le_add_right _ _), Nat.add_sub_cancel_left]
  rw [Padded, hat 1, ← Nat.add_zero before.length, hat 0]
  match R with
  | [] => simp [Der.IsContent]
  | [b] => simp [Der.IsContent, and_sign_eq_zero_iff]
  | b :: c :: rest =>
    simp [Der.IsContent, and_sign_eq_zero_iff]

/-- A string cut at the places the tests look at. -/
def cut (b0 b1 b2 b3 : UInt8) (R : Bytes) (c0 c1 : UInt8) (S : Bytes) (hashType : UInt8) : Bytes :=
  b0 :: b1 :: b2 :: b3 :: (R ++ c0 :: c1 :: (S ++ [hashType]))

section Cut

variable {b0 b1 b2 b3 c0 c1 : UInt8}

theorem length_cut : (cut b0 b1 b2 b3 R c0 c1 S hashType).length = R.length + S.length + 7 := by
  simp [cut]
  omega

theorem getD_cut (k : Nat) :
    (cut b0 b1 b2 b3 R c0 c1 S hashType).getD (R.length + k + 4) 0 =
      (c0 :: c1 :: (S ++ [hashType])).getD k 0 := by
  have htail : (cut b0 b1 b2 b3 R c0 c1 S hashType).getD (R.length + k + 4) 0 =
      (R ++ c0 :: c1 :: (S ++ [hashType])).getD (R.length + k) 0 := rfl
  rw [htail, List.getD_append_right _ _ _ _ (Nat.le_add_right _ _), Nat.add_sub_cancel_left]

theorem passesTests_cut (hR : R.length = b3.toNat) :
    PassesTests (cut b0 b1 b2 b3 R c0 c1 S hashType) R.length S.length ↔
      b0 = 0x30 ∧ b1.toNat = R.length + S.length + 4 ∧ b2 = 0x02 ∧ c0 = 0x02 ∧
        c1.toNat = S.length ∧ Der.IsContent R ∧ Der.IsContent S ∧ R.length + S.length ≤ 66 := by
  have hbeforeR : cut b0 b1 b2 b3 R c0 c1 S hashType =
      [b0, b1, b2, b3] ++ (R ++ (c0 :: c1 :: (S ++ [hashType]))) := rfl
  have hbeforeS : cut b0 b1 b2 b3 R c0 c1 S hashType =
      (b0 :: b1 :: b2 :: b3 :: (R ++ [c0, c1])) ++ (S ++ [hashType]) := by
    simp [cut]
  have hcontentR := isContent_iff (R := R) [b0, b1, b2, b3] (c0 :: c1 :: (S ++ [hashType]))
  have hcontentS := isContent_iff (R := S) (b0 :: b1 :: b2 :: b3 :: (R ++ [c0, c1])) [hashType]
  have hsix : (b0 :: b1 :: b2 :: b3 :: (R ++ [c0, c1])).length = R.length + 6 := by simp
  rw [← hbeforeR] at hcontentR
  rw [← hbeforeS, hsix] at hcontentS
  have htypeS : (cut b0 b1 b2 b3 R c0 c1 S hashType).getD (R.length + 0 + 4) 0 = c0 := getD_cut 0
  have hlenS : (cut b0 b1 b2 b3 R c0 c1 S hashType).getD (R.length + 1 + 4) 0 = c1 := getD_cut 1
  have hfive : 5 + R.length = R.length + 1 + 4 := by omega
  have hlength : (cut b0 b1 b2 b3 R c0 c1 S hashType).length = _ := length_cut
  constructor
  · intro h
    have htotal : b1.toNat = _ := h.total
    have hlenS' := h.lengthS
    rw [hfive, hlenS] at hlenS'
    have htypeS' := h.typeS
    rw [htypeS] at htypeS'
    have hhigh := h.high
    rw [hlength] at htotal hhigh
    exact ⟨h.type, by omega, h.typeR, htypeS', hlenS', hcontentR.mpr ⟨h.emptyR, h.signR, h.paddedR⟩,
      hcontentS.mpr ⟨h.emptyS, h.signS, h.paddedS⟩, by omega⟩
  · rintro ⟨htype, htotal, htypeR, htypeS', hlenS', hR', hS', hhigh⟩
    obtain ⟨hemptyR, hsignR, hpaddedR⟩ := hcontentR.mp hR'
    obtain ⟨hemptyS, hsignS, hpaddedS⟩ := hcontentS.mp hS'
    refine ⟨by omega, by omega, htype, ?_, hR.symm, by omega, ?_, by omega, htypeR, hemptyR, hsignR,
      hpaddedR, htypeS.trans htypeS', hemptyS, hsignS, hpaddedS⟩
    · rw [hlength]
      exact htotal.trans (by omega)
    · rw [hfive, hlenS]
      exact hlenS'

end Cut

/-- The length bytes leave room for the parts they announce. -/
theorem PassesTests.exists_cut {lenR lenS : Nat} (h : PassesTests sig lenR lenS) :
    ∃ b0 b1 b2 b3 R c0 c1 S hashType, R.length = lenR ∧ S.length = lenS ∧ b3.toNat = lenR ∧
      sig = cut b0 b1 b2 b3 R c0 c1 S hashType := by
  obtain ⟨b0, b1, b2, b3, tail, rfl⟩ : ∃ b0 b1 b2 b3 tail, sig = b0 :: b1 :: b2 :: b3 :: tail := by
    match sig, h.low with
    | b0 :: b1 :: b2 :: b3 :: tail, _ => exact ⟨b0, b1, b2, b3, tail, rfl⟩
  have hlength : tail.length = lenR + lenS + 3 := by
    have := h.lengths
    simp only [List.length_cons] at this
    omega
  obtain ⟨c0, c1, after, hdrop⟩ : ∃ c0 c1 after, tail.drop lenR = c0 :: c1 :: after := by
    have hlen : (tail.drop lenR).length = lenS + 3 := by
      rw [List.length_drop]
      omega
    match tail.drop lenR, hlen with
    | c0 :: c1 :: after, _ => exact ⟨c0, c1, after, rfl⟩
  have hafter : after.length = lenS + 1 := by
    have := congrArg List.length hdrop
    simp only [List.length_drop, List.length_cons] at this
    omega
  obtain hnil | ⟨S, hashType, rfl⟩ := List.eq_nil_or_concat' after
  · simp [hnil] at hafter
  refine ⟨b0, b1, b2, b3, tail.take lenR, c0, c1, S, hashType, ?_, ?_, h.lengthR, ?_⟩
  · rw [List.length_take]
    omega
  · simpa using hafter
  · rw [cut, ← hdrop, List.take_append_drop]

theorem PassesTests.isSignature {lenR lenS : Nat} (h : PassesTests sig lenR lenS) :
    ∃ R S hashType, IsSignature sig R S hashType := by
  obtain ⟨b0, b1, b2, b3, R, c0, c1, S, hashType, rfl, rfl, hb3, rfl⟩ := h.exists_cut
  obtain ⟨rfl, htotal, rfl, rfl, hlenS, hR, hS, -⟩ := (passesTests_cut hb3.symm).mp h
  refine ⟨R, S, hashType, ?_, hR, hS, h.low, h.high⟩
  have hb1 : b1 = UInt8.ofNat (R.length + S.length + 4) := by rw [← htotal, UInt8.ofNat_toNat]
  have hb3 : b3 = UInt8.ofNat R.length := by rw [← hb3, UInt8.ofNat_toNat]
  have hc1 : c1 = UInt8.ofNat S.length := by rw [← hlenS, UInt8.ofNat_toNat]
  rw [signatureBytes, ← hb1, ← hb3, ← hc1]
  rfl

theorem IsSignature.passesTests (h : IsSignature sig R S hashType) :
    PassesTests sig R.length S.length := by
  obtain ⟨hlayout, hR, hS, -, hhigh⟩ := h
  rw [hlayout, length_signatureBytes] at hhigh
  have hbyte : ∀ n, n ≤ 70 → (UInt8.ofNat n).toNat = n := fun n hn =>
    UInt8.toNat_ofNat_of_lt' (by simpa using Nat.lt_of_le_of_lt hn (by decide))
  rw [hlayout]
  refine (passesTests_cut (hbyte _ (by omega)).symm).mpr ⟨rfl, hbyte _ (by omega), rfl, rfl, ?_, hR,
    hS, by omega⟩
  exact hbyte _ (by omega)

/-- The parts of a string are found at places that depend only on it. -/
theorem IsSignature.unique {R' S' : Bytes} {hashType' : UInt8} (h : IsSignature sig R S hashType)
    (h' : IsSignature sig R' S' hashType') : R = R' ∧ S = S' ∧ hashType = hashType' := by
  have hR : R.length = R'.length := h.passesTests.lengthR.symm.trans h'.passesTests.lengthR
  have hlayout := h.layout.symm.trans h'.layout
  simp only [signatureBytes, List.cons.injEq] at hlayout
  obtain ⟨-, -, -, -, htail⟩ := hlayout
  obtain ⟨rfl, hafterR⟩ := List.append_inj htail hR
  obtain ⟨-, hlenS⟩ := List.cons.inj hafterR
  obtain ⟨-, hafterS⟩ := List.cons.inj hlenS
  obtain ⟨rfl, hlast⟩ := List.append_inj' hafterS rfl
  exact ⟨rfl, rfl, by simpa using hlast⟩

/-- The canonical encoding of two numbers and a hash type. -/
def derSignature (r s : Nat) (hashType : UInt8) : Bytes :=
  signatureBytes (Der.content r) (Der.content s) hashType

theorem isSignature_derSignature {r s : Nat} (hlayout : sig = derSignature r s hashType)
    (hhigh : sig.length ≤ 73) : IsSignature sig (Der.content r) (Der.content s) hashType := by
  have hR := Der.isContent_content r
  have hS := Der.isContent_content s
  refine ⟨hlayout, hR, hS, ?_, hhigh⟩
  rw [hlayout, derSignature, length_signatureBytes]
  have := Der.IsContent.length_pos hR
  have := Der.IsContent.length_pos hS
  omega

/-- `IsValidSignatureEncoding` accepts exactly the strings of the grammar. Their parts are unique,
they are the canonical encodings of two numbers and a hash type, and no byte outside the string is
read. -/
theorem isValidSignatureEncoding_grammar (sig : Bytes) :
    (isValidSignatureEncoding sig = true ↔ ∃ R S hashType, IsSignature sig R S hashType) ∧
    (∀ R S hashType R' S' hashType', IsSignature sig R S hashType →
      IsSignature sig R' S' hashType' → R = R' ∧ S = S' ∧ hashType = hashType') ∧
    (isValidSignatureEncoding sig = true →
      ∃! t : Nat × Nat × UInt8, sig = derSignature t.1 t.2.1 t.2.2) ∧
    readSignatureEncoding sig = some (isValidSignatureEncoding sig) := by
  have hiff : isValidSignatureEncoding sig = true ↔
      ∃ R S hashType, IsSignature sig R S hashType := by
    rw [isValidSignatureEncoding_eq_true]
    refine ⟨fun h => h.isSignature, fun ⟨R, S, hashType, h⟩ => ?_⟩
    have htests := h.passesTests
    rwa [← htests.lengthR, ← htests.lengthS, ← htests.lengthR] at htests
  refine ⟨hiff, fun R S hashType R' S' hashType' h h' => h.unique h', fun hvalid => ?_,
    readSignatureEncoding_eq sig⟩
  obtain ⟨R, S, hashType, h⟩ := hiff.mp hvalid
  refine ⟨(Der.value R, Der.value S, hashType), ?_, ?_⟩
  · simp only [derSignature, Der.content_value h.contentR, Der.content_value h.contentS]
    exact h.layout
  · rintro ⟨r, s, hashType'⟩ hlayout
    obtain ⟨hr, hs, rfl⟩ := (isSignature_derSignature hlayout h.high).unique h
    simp only [← hr, ← hs, Der.value_content]

/-- The shortest signature: both numbers are one, with the hash type `SIGHASH_ALL`. -/
theorem isValidSignatureEncoding_shortest :
    isValidSignatureEncoding (derSignature 1 1 1) = true ∧
      ∃! t : Nat × Nat × UInt8, derSignature 1 1 1 = derSignature t.1 t.2.1 t.2.2 := by
  have hgrammar := isValidSignatureEncoding_grammar (derSignature 1 1 1)
  have hvalid : isValidSignatureEncoding (derSignature 1 1 1) = true := by
    refine hgrammar.1.mpr ⟨_, _, _, isSignature_derSignature rfl ?_⟩
    decide
  exact ⟨hvalid, hgrammar.2.2.1 hvalid⟩

end Grammar

end Verium
