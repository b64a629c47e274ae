import Verium.Lib.ShiftRegister
import Verium.Primitives.Serialize

/-!
The checksum of output descriptors, `script/descriptor.cpp`. Three characters become four symbols:
their positions within a group of 32, and one symbol for the three groups. Characters within a
window of four belong to at most two such triples, hence to eight symbols, which is what the shift
register of the checksum holds.
-/

namespace Verium.Descriptor

open Lib ShiftRegister

/-- `INPUT_CHARSET`, three groups of 32. -/
def inputCharset : Bytes :=
  [0x30, 0x31, 0x32, 0x33, 0x34, 0x35, 0x36, 0x37, 0x38, 0x39, 0x28, 0x29, 0x5b, 0x5d, 0x2c, 0x27,
   0x2f, 0x2a, 0x61, 0x62, 0x63, 0x64, 0x65, 0x66, 0x67, 0x68, 0x40, 0x3a, 0x24, 0x25, 0x7b, 0x7d,
   0x49, 0x4a, 0x4b, 0x4c, 0x4d, 0x4e, 0x4f, 0x50, 0x51, 0x52, 0x53, 0x54, 0x55, 0x56, 0x57, 0x58,
   0x59, 0x5a, 0x26, 0x2b, 0x2d, 0x2e, 0x3b, 0x3c, 0x3d, 0x3e, 0x3f, 0x21, 0x5e, 0x5f, 0x7c, 0x7e,
   0x69, 0x6a, 0x6b, 0x6c, 0x6d, 0x6e, 0x6f, 0x70, 0x71, 0x72, 0x73, 0x74, 0x75, 0x76, 0x77, 0x78,
   0x79, 0x7a, 0x41, 0x42, 0x43, 0x44, 0x45, 0x46, 0x47, 0x48, 0x60, 0x23, 0x22, 0x5c, 0x20]

/-- "qpzry9x8gf2tvdw0s3jn54khce6mua7l" -/
def checksumCharset : Bytes :=
  [0x71, 0x70, 0x7a, 0x72, 0x79, 0x39, 0x78, 0x38, 0x67, 0x66, 0x32, 0x74, 0x76, 0x64, 0x77, 0x30,
   0x73, 0x33, 0x6a, 0x6e, 0x35, 0x34, 0x6b, 0x68, 0x63, 0x65, 0x36, 0x6d, 0x75, 0x61, 0x37, 0x6c]

def polyMod (c : BitVec 64) (val : Nat) : BitVec 64 :=
  let c0 : BitVec 8 := (c >>> 35).setWidth 8
  let c := ((c &&& 0x7ffffffff) <<< 5) ^^^ BitVec.ofNat 64 val
  -- the tests of c0 & 1, c0 & 2, c0 & 4, c0 & 8 and c0 & 16
  let c := if c0.getLsbD 0 then c ^^^ 0xf5dee51989 else c
  let c := if c0.getLsbD 1 then c ^^^ 0xa9fdca3312 else c
  let c := if c0.getLsbD 2 then c ^^^ 0x1bab10e32d else c
  let c := if c0.getLsbD 3 then c ^^^ 0x3706b1677a else c
  if c0.getLsbD 4 then c ^^^ 0x644d626ffd else c

/-- The variables of the loop of `DescriptorChecksum`. -/
structure Sum where
  c : BitVec 64
  cls : Nat
  clscount : Nat
deriving DecidableEq, Repr

/-- One round of the loop, for a character at position `pos` of the character set. -/
def addChar (s : Sum) (pos : Nat) : Sum :=
  let c := polyMod s.c (pos &&& 31)
  let cls := s.cls * 3 + (pos >>> 5)
  if s.clscount + 1 = 3 then ⟨polyMod c cls, 0, 0⟩ else ⟨c, cls, s.clscount + 1⟩

/-- The symbol for the groups of the last characters, if they are less than three. -/
def closeGroup (s : Sum) : BitVec 64 :=
  if 0 < s.clscount then polyMod s.c s.cls else s.c

/-- The text of the checksum. -/
def checksumText (c : BitVec 64) : Bytes :=
  (List.range 8).map fun j => checksumCharset.getD ((c >>> (5 * (7 - j))) &&& 31).toNat 0

/-- The empty text is returned for a character that is not in the set. -/
def descriptorChecksum (span : Bytes) : Bytes :=
  match span.foldlM (fun s ch => (inputCharset.idxOf? ch).map (addChar s)) (⟨1, 0, 0⟩ : Sum) with
  | none => []
  | some s =>
      let c := closeGroup s
      let c := (List.range 8).foldl (fun c _ => polyMod c 0) c
      checksumText (c ^^^ 1)

theorem independent_taps : ∀ s < 2 ^ 5,
    (∀ i < 5, (feedback [0xf5dee51989, 0xa9fdca3312, 0x1bab10e32d, 0x3706b1677a,
      (0x644d626ffd : BitVec 64)] s.testBit).getLsbD i = false) → s = 0 := by
  decide +kernel

/-- The register of the checksum, with the multiples of x^8 modulo the generator. -/
def register : Register 64 5 7 where
  taps := [0xf5dee51989, 0xa9fdca3312, 0x1bab10e32d, 0x3706b1677a, 0x644d626ffd]
  length_taps := rfl
  taps_below := by simp [below_iff]
  fits := by decide
  independent := independent_taps

/-- A symbol in the word of the register. -/
def word (v : Nat) : BitVec 64 :=
  BitVec.ofNat 64 v

theorem polyMod_eq (c : BitVec 64) (val : Nat) : polyMod c val = register.step c (word val) := by
  have hbit : ∀ i < 8, ((c >>> 35).setWidth 8).getLsbD i = c.getLsbD (35 + i) := by
    intro i hi
    rw [BitVec.getLsbD_setWidth, BitVec.getLsbD_ushiftRight, decide_eq_true hi, Bool.true_and]
  have hmask : (0x7ffffffff : BitVec 64) = mask 64 35 := by decide
  simp only [polyMod, hbit 0 (by decide), hbit 1 (by decide), hbit 2 (by decide),
    hbit 3 (by decide), hbit 4 (by decide), ite_xor, hmask, Register.step, Register.next, register,
    feedback, word, Nat.reduceMul, Nat.reduceAdd, BitVec.ofNat_eq_ofNat, BitVec.xor_zero]
  ac_rfl

theorem toNat_word {v : Nat} (h : v < 32) : (word v).toNat = v := by
  rw [word, BitVec.toNat_ofNat, Nat.mod_eq_of_lt (by omega)]

theorem below_words {vs : List Nat} (h : ∀ v ∈ vs, v < 32) : ∀ x ∈ vs.map word, Below 5 x := by
  intro x hx
  obtain ⟨v, hv, rfl⟩ := List.mem_map.mp hx
  rw [below_iff, toNat_word (h v hv)]
  exact h v hv

theorem map_word_injOn {vs vs' : List Nat} (h : ∀ v ∈ vs, v < 32) (h' : ∀ v ∈ vs', v < 32)
    (heq : vs.map word = vs'.map word) : vs = vs' := by
  have hback : ∀ vs : List Nat, (∀ v ∈ vs, v < 32) → (vs.map word).map BitVec.toNat = vs := by
    intro vs hvs
    rw [List.map_map]
    conv_rhs => rw [← List.map_id vs]
    exact List.map_congr_left fun v hv => toNat_word (hvs v hv)
  rw [← hback vs h, heq, hback vs' h']

/-- The symbols for the characters at some positions. -/
def stream : List Nat → List Nat
  | [] => []
  | [p] => [p % 32, p / 32]
  | [p, p'] => [p % 32, p' % 32, p / 32 * 3 + p' / 32]
  | p :: p' :: p'' :: ps =>
      [p % 32, p' % 32, p'' % 32, (p / 32 * 3 + p' / 32) * 3 + p'' / 32] ++ stream ps

theorem addChar_eq (s : Sum) (pos : Nat) :
    addChar s pos =
      if s.clscount + 1 = 3 then
        ⟨register.run s.c [word (pos % 32), word (s.cls * 3 + pos / 32)], 0, 0⟩
      else ⟨register.run s.c [word (pos % 32)], s.cls * 3 + pos / 32, s.clscount + 1⟩ := by
  have hlow : pos &&& 31 = pos % 32 := Nat.and_two_pow_sub_one_eq_mod pos 5
  have hhigh : pos >>> 5 = pos / 32 := Nat.shiftRight_eq_div_pow pos 5
  simp only [addChar, hlow, hhigh, polyMod_eq, Register.run, List.foldl_cons, List.foldl_nil]

theorem closeGroup_foldl (c : BitVec 64) (ps : List Nat) :
    closeGroup (ps.foldl addChar ⟨c, 0, 0⟩) = register.run c ((stream ps).map word) := by
  induction ps using stream.induct generalizing c with
  | case1 => rfl
  | case2 p => simp [stream, addChar_eq, closeGroup, polyMod_eq, Register.run]
  | case3 p p' => simp [stream, addChar_eq, closeGroup, polyMod_eq, Register.run]
  | case4 p p' p'' ps ih =>
    rw [stream, List.map_append, Register.run_append, ← ih]
    simp [addChar_eq, Register.run]

theorem stream_lt {ps : List Nat} (h : ∀ p ∈ ps, p < 96) : ∀ v ∈ stream ps, v < 32 := by
  induction ps using stream.induct with
  | case1 => exact nofun
  | case2 p =>
    simp only [List.forall_mem_cons, List.not_mem_nil, false_imp_iff, forall_const, and_true,
      stream] at h ⊢
    omega
  | case3 p p' =>
    simp only [List.forall_mem_cons, List.not_mem_nil, false_imp_iff, forall_const, and_true,
      stream] at h ⊢
    omega
  | case4 p p' p'' ps ih =>
    simp only [List.forall_mem_cons, stream, List.cons_append, List.nil_append] at h ⊢
    obtain ⟨hp, hp', hp'', hps⟩ := h
    exact ⟨by omega, by omega, by omega, by omega, ih hps⟩

theorem length_stream (ps : List Nat) : (stream ps).length = ps.length + (ps.length + 2) / 3 := by
  induction ps using stream.induct with
  | case1 => rfl
  | case2 p => simp [stream]
  | case3 p p' => simp [stream]
  | case4 p p' p'' ps ih =>
    simp only [stream, List.length_append, List.length_cons, List.length_nil, ih]
    omega

theorem stream_injective {ps ps' : List Nat} (hlen : ps.length = ps'.length)
    (h : ∀ p ∈ ps, p < 96) (h' : ∀ p ∈ ps', p < 96) (heq : stream ps = stream ps') : ps = ps' := by
  induction ps using stream.induct generalizing ps' with
  | case1 => exact (List.length_eq_zero_iff.mp hlen.symm).symm
  | case2 p =>
    obtain ⟨q, rfl⟩ := List.length_eq_one_iff.mp hlen.symm
    simp only [stream, List.cons.injEq, and_true] at heq ⊢
    omega
  | case3 p p' =>
    obtain ⟨q, q', rfl⟩ := List.length_eq_two.mp hlen.symm
    simp only [stream, List.cons.injEq, and_true, List.forall_mem_cons] at heq h h' ⊢
    omega
  | case4 p p' p'' ps ih =>
    obtain ⟨q, qs, rfl⟩ := List.exists_cons_of_length_eq_add_one hlen.symm
    obtain ⟨q', qs, rfl⟩ := List.exists_cons_of_length_eq_add_one (Nat.succ.inj hlen.symm)
    obtain ⟨q'', qs, rfl⟩ :=
      List.exists_cons_of_length_eq_add_one (Nat.succ.inj (Nat.succ.inj hlen.symm))
    simp only [stream, List.cons_append, List.nil_append, List.cons.injEq, List.forall_mem_cons]
      at heq h h' ⊢
    obtain ⟨hp, hp', hp'', hcls, hrest⟩ := heq
    have htail := ih (by simpa using hlen) h.2.2.2 h'.2.2.2 hrest
    refine ⟨by omega, by omega, by omega, htail⟩

theorem stream_take_drop_three (ps : List Nat) :
    stream ps = stream (ps.take 3) ++ stream (ps.drop 3) := by
  match ps with
  | [] => rfl
  | [p] => rfl
  | [p, p'] => rfl
  | p :: p' :: p'' :: ps => simp [stream]

theorem stream_take_drop_six (ps : List Nat) :
    stream ps = stream (ps.take 6) ++ stream (ps.drop 6) := by
  rw [stream_take_drop_three ps, stream_take_drop_three (ps.take 6),
    stream_take_drop_three (ps.drop 3), List.take_take, List.drop_drop, List.drop_take,
    List.append_assoc]
  rfl

/-- A window that starts in the first triple ends in the second one. -/
theorem stream_first_window {pre w w' post : List Nat} (hpre : pre.length ≤ 2)
    (hlen : w.length = w'.length) (hwindow : w.length ≤ 4) (hne : w ≠ w')
    (hw : ∀ p ∈ pre ++ w ++ post, p < 96) (hw' : ∀ p ∈ pre ++ w' ++ post, p < 96) :
    ∃ U U' Q, stream (pre ++ w ++ post) = U ++ Q ∧ stream (pre ++ w' ++ post) = U' ++ Q ∧
      U.length = U'.length ∧ U.length ≤ 8 ∧ U ≠ U' := by
  have hbehind : ∀ x : List Nat, x.length ≤ 4 →
      (pre ++ x ++ post).drop 6 = post.drop (6 - (pre.length + x.length)) := by
    intro x hx
    rw [List.drop_append, List.drop_of_length_le (by rw [List.length_append]; omega),
      List.nil_append, List.length_append]
  have hdrop : (pre ++ w ++ post).drop 6 = (pre ++ w' ++ post).drop 6 := by
    rw [hbehind w hwindow, hbehind w' (by omega), hlen]
  have htake : (pre ++ w ++ post).take 6 ≠ (pre ++ w' ++ post).take 6 := by
    intro htake
    apply hne
    have heq : pre ++ w ++ post = pre ++ w' ++ post := by
      rw [← List.take_append_drop 6 (pre ++ w ++ post), htake, hdrop, List.take_append_drop]
    simpa using heq
  have hlength : ((pre ++ w ++ post).take 6).length = ((pre ++ w' ++ post).take 6).length := by
    simp [hlen]
  refine ⟨stream ((pre ++ w ++ post).take 6), stream ((pre ++ w' ++ post).take 6),
    stream ((pre ++ w ++ post).drop 6), stream_take_drop_six _, ?_, ?_, ?_, ?_⟩
  · rw [hdrop]
    exact stream_take_drop_six _
  · rw [length_stream, length_stream, hlength]
  · have hsix : ((pre ++ w ++ post).take 6).length ≤ 6 := List.length_take_le _ _
    rw [length_stream]
    omega
  · intro hstream
    exact htake (stream_injective hlength (fun p hp => hw p (List.mem_of_mem_take hp))
      (fun p hp => hw' p (List.mem_of_mem_take hp)) hstream)

/-- Positions that differ within four characters give symbols that differ within eight. -/
theorem stream_window {pre w w' post : List Nat} (hlen : w.length = w'.length)
    (hwindow : w.length ≤ 4) (hne : w ≠ w') (hw : ∀ p ∈ pre ++ w ++ post, p < 96)
    (hw' : ∀ p ∈ pre ++ w' ++ post, p < 96) :
    ∃ P U U' Q, stream (pre ++ w ++ post) = P ++ U ++ Q ∧
      stream (pre ++ w' ++ post) = P ++ U' ++ Q ∧ U.length = U'.length ∧ U.length ≤ 8 ∧
        U ≠ U' := by
  match pre with
  | p :: p' :: p'' :: pre =>
    -- a whole triple in front of the window is common
    simp only [List.cons_append, List.forall_mem_cons] at hw hw'
    obtain ⟨P, U, U', Q, hU, hU', hrest⟩ :=
      stream_window hlen hwindow hne hw.2.2.2 hw'.2.2.2
    refine ⟨[p % 32, p' % 32, p'' % 32, (p / 32 * 3 + p' / 32) * 3 + p'' / 32] ++ P, U, U', Q,
      ?_, ?_, hrest⟩
    · simp only [List.cons_append, stream, hU, List.nil_append]
    · simp only [List.cons_append, stream, hU', List.nil_append]
  | [] =>
    obtain ⟨U, U', Q, h⟩ := stream_first_window (by simp) hlen hwindow hne hw hw'
    exact ⟨[], U, U', Q, h⟩
  | [p] =>
    obtain ⟨U, U', Q, h⟩ := stream_first_window (by simp) hlen hwindow hne hw hw'
    exact ⟨[], U, U', Q, h⟩
  | [p, p'] =>
    obtain ⟨U, U', Q, h⟩ := stream_first_window (by simp) hlen hwindow hne hw hw'
    exact ⟨[], U, U', Q, h⟩

/-- The position of a character of the set. -/
def posOf (ch : UInt8) : Nat :=
  inputCharset.idxOf ch

theorem idxOf?_eq {ch : UInt8} (h : ch ∈ inputCharset) :
    inputCharset.idxOf? ch = some (posOf ch) := by
  cases hfind : inputCharset.idxOf? ch with
  | none => exact absurd h (List.idxOf?_eq_none_iff.mp hfind)
  | some pos =>
    rw [posOf, List.idxOf_eq_getD_idxOf?, hfind]
    rfl

theorem map_posOf_injOn {x x' : Bytes} (h : ∀ ch ∈ x, ch ∈ inputCharset)
    (h' : ∀ ch ∈ x', ch ∈ inputCharset) (heq : x.map posOf = x'.map posOf) : x = x' := by
  have hback : ∀ x : Bytes, (∀ ch ∈ x, ch ∈ inputCharset) →
      (x.map posOf).map (inputCharset.getD · 0) = x := by
    intro x hx
    rw [List.map_map]
    conv_rhs => rw [← List.map_id x]
    apply List.map_congr_left
    intro ch hch
    simp [posOf, List.getElem?_idxOf (hx ch hch)]
  rw [← hback x h, heq, hback x' h']

/-- The register at the end of the computation, before the text of the checksum is formed. -/
def finalState (span : Bytes) : BitVec 64 :=
  register.run 1 ((stream (span.map posOf) ++ List.replicate 8 0).map word)

theorem descriptorChecksum_eq {span : Bytes} (h : ∀ ch ∈ span, ch ∈ inputCharset) :
    descriptorChecksum span = checksumText (finalState span ^^^ 1) := by
  have hloop : ∀ s : Sum, span.foldlM (fun s ch => (inputCharset.idxOf? ch).map (addChar s)) s =
      some ((span.map posOf).foldl addChar s) := by
    induction span with
    | nil => exact fun s => rfl
    | cons ch span ih =>
      intro s
      obtain ⟨hch, hspan⟩ := List.forall_mem_cons.mp h
      rw [List.foldlM_cons, idxOf?_eq hch]
      exact ih hspan _
  have hzeros : ∀ c, (List.range 8).foldl (fun c _ => polyMod c 0) c =
      register.run c ((List.replicate 8 0).map word) := by
    intro c
    simp only [polyMod_eq]
    rfl
  rw [descriptorChecksum, hloop]
  simp only [hzeros, closeGroup_foldl]
  rw [finalState, List.map_append, Register.run_append]

theorem below_one : Below (5 * (7 + 1)) (1 : BitVec 64) := by simp [below_iff]

theorem checksumText_injective {c c' : BitVec 64} (hc : Below (5 * (7 + 1)) c)
    (hc' : Below (5 * (7 + 1)) c') (h : checksumText c = checksumText c') : c = c' := by
  have hchars : ∀ v < 32, ∀ v' < 32, checksumCharset.getD v 0 =
      checksumCharset.getD v' 0 → v = v' := by
    decide +kernel
  have hmask : (31 : BitVec 64) = mask 64 5 := by decide
  apply register.symbols_injective hc hc'
  rw [symbols, symbols]
  rw [checksumText, checksumText] at h
  apply List.map_congr_left
  intro i hi
  have hlt : ∀ x : BitVec 64, (x &&& 31).toNat < 32 := by
    intro x
    rw [hmask]
    exact below_iff.mp (below_mask x)
  have hi' : i < 8 := List.mem_range.mp hi
  have hat := congrArg (fun l => l.getD i 0) h
  simp only [List.getD_eq_getElem?_getD, List.getElem?_map, List.getElem?_range hi',
    Option.map_some, Option.getD_some] at hat
  rw [← hmask]
  apply BitVec.eq_of_toNat_eq
  apply hchars _ (hlt _) _ (hlt _)
  simpa only [List.getD_eq_getElem?_getD] using hat

theorem posOf_map_lt {span : Bytes} (h : ∀ ch ∈ span, ch ∈ inputCharset) :
    ∀ p ∈ span.map posOf, p < 96 := by
  intro p hp
  obtain ⟨ch, hch, rfl⟩ := List.mem_map.mp hp
  exact (List.idxOf_lt_length_of_mem (h ch hch)).trans (by decide)

theorem zeros_lt : ∀ v ∈ List.replicate 8 0, v < 32 := by decide

theorem finalState_below {span : Bytes} (h : ∀ ch ∈ span, ch ∈ inputCharset) :
    Below (5 * (7 + 1)) (finalState span ^^^ 1) := by
  have hsymbols : ∀ v ∈ stream (span.map posOf) ++ List.replicate 8 0, v < 32 :=
    List.forall_mem_append.mpr ⟨stream_lt (posOf_map_lt h), zeros_lt⟩
  exact (register.run_below below_one (below_words hsymbols)).xor below_one

theorem finalState_ne {pre w w' post : Bytes} (hlen : w.length = w'.length)
    (hwindow : w.length ≤ 4) (hne : w ≠ w') (hw : ∀ ch ∈ pre ++ w ++ post, ch ∈ inputCharset)
    (hw' : ∀ ch ∈ pre ++ w' ++ post, ch ∈ inputCharset) :
    finalState (pre ++ w ++ post) ≠ finalState (pre ++ w' ++ post) := by
  have hmem : ∀ ch ∈ w, ch ∈ inputCharset := fun ch hch => hw ch (by simp [hch])
  have hmem' : ∀ ch ∈ w', ch ∈ inputCharset := fun ch hch => hw' ch (by simp [hch])
  have hlt := posOf_map_lt hw
  have hlt' := posOf_map_lt hw'
  have hsymbols := stream_lt hlt
  have hsymbols' := stream_lt hlt'
  simp only [finalState]
  simp only [List.map_append] at hlt hlt' hsymbols hsymbols' ⊢
  obtain ⟨P, U, U', Q, hU, hU', hlength, height, hneq⟩ :=
    stream_window (by simpa using hlen) (by simpa using hwindow)
      (fun h => hne (map_posOf_injOn hmem hmem' h)) hlt hlt'
  rw [hU] at hsymbols ⊢
  rw [hU'] at hsymbols' ⊢
  simp only [List.forall_mem_append] at hsymbols hsymbols'
  obtain ⟨⟨hP, hUlt⟩, hQ⟩ := hsymbols
  obtain ⟨⟨-, hUlt'⟩, -⟩ := hsymbols'
  have hpost : ∀ v ∈ Q ++ List.replicate 8 0, v < 32 := List.forall_mem_append.mpr ⟨hQ, zeros_lt⟩
  have hburst := register.run_burst below_one (below_words hP) (below_words hUlt)
    (below_words hUlt') (below_words hpost) (by simpa using hlength) (by simpa using height)
    fun h => hneq (map_word_injOn hUlt hUlt' h)
  simpa only [List.map_append, List.append_assoc] using hburst

theorem descriptorChecksum_ne {pre w w' post : Bytes} (hlen : w.length = w'.length)
    (hwindow : w.length ≤ 4) (hne : w ≠ w') (hw : ∀ ch ∈ pre ++ w ++ post, ch ∈ inputCharset)
    (hw' : ∀ ch ∈ pre ++ w' ++ post, ch ∈ inputCharset) :
    descriptorChecksum (pre ++ w ++ post) ≠ descriptorChecksum (pre ++ w' ++ post) := by
  rw [descriptorChecksum_eq hw, descriptorChecksum_eq hw']
  intro heq
  apply finalState_ne hlen hwindow hne hw hw'
  have hstate := checksumText_injective (finalState_below hw) (finalState_below hw') heq
  have hcancel := congrArg (· ^^^ 1) hstate
  simpa [BitVec.xor_assoc] using hcancel

/-- Descriptors that differ only within four consecutive characters have different checksums, at
any length; in particular one wrong character and two characters that changed places are
detected. -/
theorem descriptorChecksum_detects :
    (∀ pre w w' post : Bytes, w.length = w'.length → w.length ≤ 4 → w ≠ w' →
      (∀ ch ∈ pre ++ w ++ post, ch ∈ inputCharset) →
      (∀ ch ∈ pre ++ w' ++ post, ch ∈ inputCharset) →
      descriptorChecksum (pre ++ w ++ post) ≠ descriptorChecksum (pre ++ w' ++ post)) ∧
    (∀ (pre post : Bytes) (a a' : UInt8), a ≠ a' →
      (∀ ch ∈ pre ++ [a] ++ post, ch ∈ inputCharset) → a' ∈ inputCharset →
      descriptorChecksum (pre ++ [a] ++ post) ≠ descriptorChecksum (pre ++ [a'] ++ post)) ∧
    ∀ (pre post : Bytes) (a a' : UInt8), a ≠ a' →
      (∀ ch ∈ pre ++ [a, a'] ++ post, ch ∈ inputCharset) →
      descriptorChecksum (pre ++ [a, a'] ++ post) ≠
        descriptorChecksum (pre ++ [a', a] ++ post) := by
  refine ⟨fun pre w w' post => descriptorChecksum_ne, ?_, ?_⟩
  · intro pre post a a' hne hw ha'
    simp only [List.forall_mem_append] at hw
    have hw' : ∀ ch ∈ [a'], ch ∈ inputCharset := by simpa using ha'
    apply descriptorChecksum_ne
    · rfl
    · exact Nat.one_le_ofNat
    · simpa using hne
    · exact List.forall_mem_append.mpr ⟨List.forall_mem_append.mpr hw.1, hw.2⟩
    · exact List.forall_mem_append.mpr ⟨List.forall_mem_append.mpr ⟨hw.1.1, hw'⟩, hw.2⟩
  · intro pre post a a' hne hw
    apply descriptorChecksum_ne
    · rfl
    · exact Nat.le_add_left 2 2
    · intro heq
      exact hne (List.cons.inj heq).1
    · exact hw
    · intro ch hch
      apply hw
      simp only [List.mem_append, List.mem_cons, List.not_mem_nil, or_false] at hch ⊢
      tauto

/-- The descriptors "pk(ab)" and "pk(ba)". -/
theorem descriptorChecksum_detects_sample :
    descriptorChecksum [0x70, 0x6b, 0x28, 0x61, 0x62, 0x29] ≠
      descriptorChecksum [0x70, 0x6b, 0x28, 0x62, 0x61, 0x29] :=
  descriptorChecksum_detects.2.2 [0x70, 0x6b, 0x28] [0x29] 0x61 0x62
    (by decide +kernel) (by decide +kernel)

end Verium.Descriptor
