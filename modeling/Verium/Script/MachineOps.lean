import Verium.Script.Machine
import Verium.Script.ScriptNumCodec

/-!
The machine computes what the interpreter computes, operation by operation. `ofState` takes a state
of the interpreter to the variables of the machine; `Refines op` says that from every such state the
machine ends `op` as the interpreter does, so it stops only with a script error.
-/

namespace Verium.Machine

open Lib Lib.Traced

/-- The variables of the machine in a state of the interpreter. -/
def ofState (s : EvalState) : EvalVars where
  stack := storage s.stack
  altstack := storage s.altstack
  vfExec := s.vfExec
  pbegincodehash := s.pbegincodehash
  nOpCount := s.nOpCount

/-- A result of the interpreter, as one of the machine. -/
def embed {α β : Type} (f : α → β) (x : Except ScriptError α) : Except Stop β :=
  (x.map f).mapError .script

section Embed

variable {α β : Type} {f : α → β}

@[simp]
theorem embed_ok (a : α) : embed f (.ok a) = .ok (f a) :=
  rfl

@[simp]
theorem embed_error (e : ScriptError) : embed f (.error e) = .error (.script e) :=
  rfl

theorem embed_bind {γ δ : Type} {g : γ → δ} {x : Except ScriptError α}
    {k : α → Except ScriptError γ}
    {m : β → Step δ} (h : ∀ a, m (f a) = embed g (k a)) : embed f x >>= m = embed g (x >>= k) := by
  cases x with
  | error e => rfl
  | ok a => exact h a

theorem mapError_bind {γ δ : Type} {g : γ → δ} {x : Except ScriptError α}
    {k : α → Except ScriptError γ} {m : α → Step δ} (h : ∀ a, m a = embed g (k a)) :
    x.mapError .script >>= m = embed g (x >>= k) := by
  cases x with
  | error e => rfl
  | ok a => exact h a

end Embed

section Primitives

variable {l : List Bytes} {x : Bytes} {n : Nat}

@[simp]
theorem pure_eq_ok {α : Type} (a : α) : (pure a : Step α) = .ok a :=
  rfl

@[simp]
theorem orStop_some {α : Type} (stop : Stop) (a : α) : orStop stop (some a) = .ok a :=
  rfl

@[simp]
theorem setError_eq {α : Type} (e : ScriptError) : (setError e : Step α) = .error (.script e) :=
  rfl

theorem setErrorIf_eq {c : Prop} [Decidable c] {e : ScriptError} :
    setErrorIf c e = (rejectIf c e).mapError .script := by
  simp only [setErrorIf, rejectIf]
  split <;> rfl

theorem setErrorIf_of_not {c : Prop} [Decidable c] {e : ScriptError} (h : ¬ c) :
    setErrorIf c e = .ok () :=
  if_neg h

theorem setErrorIf_bind {γ δ : Type} {g : γ → δ} {c c' : Prop} [Decidable c] [Decidable c']
    {e : ScriptError} {k : Unit → Except ScriptError γ} {m : Unit → Step δ} (hc : c ↔ c')
    (h : ¬ c' → m () = embed g (k ())) : setErrorIf c e >>= m = embed g (rejectIf c' e >>= k) := by
  simp only [setErrorIf, rejectIf, hc]
  split
  · rfl
  · next hnot => exact h hnot

@[simp]
theorem stacktop_storage (i : Int) :
    stacktop (storage l) i = orStop .outOfRange (if i < 0 then l[(-i - 1).toNat]? else none) := by
  simp [stacktop]

@[simp]
theorem popstack_storage_cons : popstack (storage (x :: l)) = .ok (storage l) := by
  simp [popstack]

@[simp]
theorem needs_zero : needs l 0 = .ok () := by
  simp only [needs, setErrorIf, Nat.not_lt_zero, rejectIf, if_false]

@[simp]
theorem needs_nil : needs [] (n + 1) = setError .invalidStackOperation := by
  simp only [needs, setErrorIf, List.length_nil, Nat.zero_lt_succ, rejectIf, if_true]
  rfl

@[simp]
theorem needs_storage_cons : needs (storage (x :: l)) (n + 1) = needs (storage l) n := by
  simp [needs, setErrorIf]

@[simp]
theorem setStacktop_storage (i : Int) :
    setStacktop (storage l) i x = orStop .outOfRange
      (if i < 0 then (l[(-i - 1).toNat]?).bind fun _ => some (storage (l.set (-i - 1).toNat x))
      else none) := by
  simp [setStacktop]

end Primitives

section Numbers

theorem getvch_eq {n : Int} (h : n ≠ CScriptNum.int64Min) :
    CScriptNum.getvch n = .ok (scriptNumSerialize n) := by
  simp [CScriptNum.getvch, rejectIf_of_not h]

@[simp]
theorem getvch_natCast (n : Nat) : CScriptNum.getvch n = .ok (scriptNumSerialize n) := by
  apply getvch_eq
  simp only [CScriptNum.int64Min]
  omega

/-- A value read from at most four bytes. -/
def Operand (n : Int) : Prop :=
  -2 ^ 32 < n ∧ n < 2 ^ 32

theorem operand_bounds {flags : EvalFlags} {vch : Bytes} {n : Int} (h : operand flags vch = .ok n) :
    Operand n := by
  obtain ⟨⟨⟩, hlen, h⟩ := bind_eq_ok.mp h
  obtain ⟨⟨⟩, -, h⟩ := bind_eq_ok.mp h
  cases h
  have habs := scriptNumSetVch_abs vch
  have hpow : 256 ^ vch.length ≤ 256 ^ 4 :=
    Nat.pow_le_pow_right (by decide) (not_lt.mp (rejectIf_eq_ok.mp hlen))
  simp only [Operand]
  omega

section Operators

open CScriptNum

variable {a b : Int}

theorem addAssign_eq (h : Fits (a + b)) : addAssign a b = .ok (a + b) := by
  have hassert : b = 0 ∨ (0 < b ∧ a ≤ int64Max - b) ∨ (b < 0 ∧ int64Min - b ≤ a) := by
    simp only [Fits, int64Max, int64Min] at h ⊢
    omega
  simp only [addAssign, rejectIf_of_not (not_not.mpr hassert), ok_bind, pure_eq_ok]

theorem subAssign_eq (h : Fits (a - b)) : subAssign a b = .ok (a - b) := by
  have hassert : b = 0 ∨ (0 < b ∧ int64Min + b ≤ a) ∨ (b < 0 ∧ a ≤ int64Max + b) := by
    simp only [Fits, int64Max, int64Min] at h ⊢
    omega
  simp only [subAssign, rejectIf_of_not (not_not.mpr hassert), ok_bind, pure_eq_ok]

theorem neg_eq (h : a ≠ int64Min) : neg a = .ok (-a) := by
  simp [neg, rejectIf_of_not h]

theorem add_eq (h : Fits (a + b)) : add a b = .ok (a + b) := by
  simp [add, rejectIf_of_not (not_not.mpr h)]

theorem sub_eq (h : Fits (a - b)) : sub a b = .ok (a - b) := by
  simp [sub, rejectIf_of_not (not_not.mpr h)]

end Operators

variable {bn bn1 bn2 : Int}

theorem Operand.ne_int64Min (h : Operand bn) : bn ≠ CScriptNum.int64Min := by
  simp only [Operand, CScriptNum.int64Min] at h ⊢
  omega

theorem evalUnary_eq (op : UnaryOp) (h : Operand bn) : evalUnary op bn = .ok (op.eval bn) := by
  have hbounds := h
  simp only [Operand] at hbounds
  cases op with
  | add1 => exact addAssign_eq (by simp only [Fits]; omega)
  | sub1 => exact subAssign_eq (by simp only [Fits]; omega)
  | negate => exact neg_eq h.ne_int64Min
  | abs =>
    simp only [evalUnary, UnaryOp.eval, neg_eq h.ne_int64Min]
    split <;> rfl
  | not | notEqual0 => rfl

theorem evalUnary_ne_int64Min (op : UnaryOp) (h : Operand bn) :
    op.eval bn ≠ CScriptNum.int64Min := by
  simp only [Operand] at h
  cases op <;> simp only [UnaryOp.eval, CScriptNum.int64Min] <;> (try split) <;> omega

theorem evalBinary_eq (op : BinaryOp) (h1 : Operand bn1) (h2 : Operand bn2) :
    evalBinary op bn1 bn2 = .ok (op.eval bn1 bn2) := by
  simp only [Operand] at h1 h2
  cases op with
  | add => exact add_eq (by simp only [Fits]; omega)
  | sub => exact sub_eq (by simp only [Fits]; omega)
  | _ => rfl

theorem evalBinary_ne_int64Min (op : BinaryOp) (h1 : Operand bn1) (h2 : Operand bn2) :
    op.eval bn1 bn2 ≠ CScriptNum.int64Min := by
  simp only [Operand] at h1 h2
  cases op <;> simp only [BinaryOp.eval, CScriptNum.int64Min] <;> (try split) <;> omega

end Numbers

/-- The operations that only rearrange the stack. -/
def stackOps : List Op :=
  [.drop2, .dup2, .dup3, .over2, .rot2, .swap2, .ifDup, .depth, .drop, .dup, .nip, .over, .rot,
    .swap, .tuck, .size]

theorem stackOp_eq (op : Op) (l : List Bytes) (hop : op ∈ stackOps) :
    stackOp op (storage l) =
      match Verium.stackOp op l with
      | none => .error (.script .invalidStackOperation)
      | some l' => .ok (storage l') := by
  have hrot2 : ∀ (a b c d e f : Bytes) (l : List Bytes),
      eraseRangeFromEnd? (storage (a :: b :: c :: d :: e :: f :: l)) 6 4 =
        some (storage (a :: b :: c :: d :: l)) := fun a b c d e f l =>
    eraseRangeFromEnd?_storage [a, b, c, d] [e, f] l
  have htuck : ∀ (a b x : Bytes) (l : List Bytes),
      insertFromEnd? (storage (a :: b :: l)) 2 x = some (storage (a :: b :: x :: l)) :=
    fun a b x l => insertFromEnd?_storage [a, b] l x
  cases op with
  | drop2 | dup2 | nip | «over» | swap | tuck =>
    rcases l with _ | ⟨a, _ | ⟨b, l⟩⟩ <;> simp [stackOp, Verium.stackOp, swapStacktop, htuck]
  | dup3 | rot =>
    rcases l with _ | ⟨a, _ | ⟨b, _ | ⟨c, l⟩⟩⟩ <;> simp [stackOp, Verium.stackOp, swapStacktop]
  | over2 | swap2 =>
    rcases l with _ | ⟨a, _ | ⟨b, _ | ⟨c, _ | ⟨d, l⟩⟩⟩⟩ <;>
      simp [stackOp, Verium.stackOp, swapStacktop]
  | rot2 =>
    rcases l with _ | ⟨a, _ | ⟨b, _ | ⟨c, _ | ⟨d, _ | ⟨e, _ | ⟨f, l⟩⟩⟩⟩⟩⟩ <;>
      simp [stackOp, Verium.stackOp, hrot2]
  | ifDup =>
    rcases l with _ | ⟨a, l⟩
    · simp [stackOp, Verium.stackOp]
    · simp [stackOp, Verium.stackOp, apply_ite storage]
  | drop | dup | size => rcases l with _ | ⟨a, l⟩ <;> simp [stackOp, Verium.stackOp]
  | depth => simp [stackOp, Verium.stackOp]
  | _ => simp [stackOps] at hop

section Operations

variable {crypto : Crypto} {flags : EvalFlags} {checker : SignatureChecker}
  {sigversion : SigVersion} {fExec : Bool} {pc : CScript}

@[simp]
theorem stacktop_top (vch : Bytes) (l : List Bytes) :
    stacktop (storage (vch :: l)) (-1) = .ok vch := by
  simp

theorem pushResult_eq (verify : Bool) (serror : ScriptError) (fSuccess : Bool) (l : List Bytes) :
    pushResult verify serror fSuccess (storage l) =
      embed storage (pushOrVerify verify serror fSuccess l) := by
  cases verify <;> cases fSuccess <;> simp [pushResult, pushOrVerify, rejectIf]

theorem ofVch_eq (vch : Bytes) :
    CScriptNum.ofVch vch flags.minimalData defaultMaxNumSize =
      (operand flags vch).mapError .script :=
  rfl

/-- The refinement of one operation, from any state. -/
def Refines (crypto : Crypto) (flags : EvalFlags) (checker : SignatureChecker)
    (sigversion : SigVersion) (fExec : Bool) (pc : CScript) (op : Op) : Prop :=
  ∀ s : EvalState, execPlain crypto flags checker sigversion fExec pc op (ofState s) =
    embed ofState (Verium.execOp crypto flags checker sigversion fExec pc op s)

theorem stacktop_depth {l : List Bytes} {n : Nat} (hn : n < l.length) :
    stacktop (storage l) (-(n : Int) - 1) = .ok (l.getD n []) := by
  have hdepth : (-(-(n : Int) - 1) - 1).toNat = n := by omega
  rw [stacktop_storage, if_pos (by omega), hdepth, List.getElem?_eq_getElem hn, orStop_some,
    List.getD_eq_getElem _ _ hn]

theorem eraseRolled_eq (roll : Bool) {l : List Bytes} {n : Nat} (hn : n < l.length) :
    eraseRolled roll (storage l) n = .ok (storage (if roll then l.eraseIdx n else l)) := by
  cases roll with
  | false => rfl
  | true =>
    rw [eraseRolled, if_pos rfl, eraseFromEnd?_storage, if_pos (by omega), Int.add_sub_cancel,
      Int.toNat_natCast, List.getElem?_eq_getElem hn, Option.bind_some, orStop_some,
      if_pos rfl]

theorem execPickRoll_eq (roll : Bool) (vch x : Bytes) (l : List Bytes) :
    execPickRoll flags roll (storage (vch :: x :: l)) = embed storage (do
      let n := scriptNumGetInt (← operand flags vch)
      rejectIf (n < 0 ∨ ((x :: l).length : Int) ≤ n) .invalidStackOperation
      return (x :: l).getD n.toNat [] ::
        if roll then (x :: l).eraseIdx n.toNat else x :: l) := by
  simp only [execPickRoll, needs_storage_cons, needs_zero, stacktop_top, ok_bind, ofVch_eq,
    popstack_storage_cons, length_storage]
  refine mapError_bind fun bn => setErrorIf_bind Iff.rfl fun hrange => ?_
  obtain ⟨n, hn⟩ : ∃ n : Nat, scriptNumGetInt bn = n := ⟨(scriptNumGetInt bn).toNat, by omega⟩
  have hlt : n < (x :: l).length := by omega
  rw [hn]
  simp only [ok_bind, stacktop_depth hlt, eraseRolled_eq roll hlt, pushBack_storage,
    Int.toNat_natCast]
  rfl

theorem refines_pickRoll {op : Op} (hop : op = .pick ∨ op = .roll) :
    Refines crypto flags checker sigversion fExec pc op := by
  rintro ⟨l, altstack, vfExec, code, n⟩
  rcases hop with rfl | rfl
  all_goals
    rcases l with _ | ⟨vch, _ | ⟨x, l⟩⟩
    · rfl
    · rfl
    · simp only [execPlain.eq_def, Verium.execOp.eq_def, onStack, ofState, execPickRoll_eq]
      cases operand flags vch with
      | error e => rfl
      | ok bn =>
        simp only [ok_bind, rejectIf]
        split <;> rfl

theorem refines_equal (verify : Bool) :
    Refines crypto flags checker sigversion fExec pc (.equal verify) := by
  rintro ⟨l, altstack, vfExec, code, n⟩
  rcases l with _ | ⟨vch2, _ | ⟨vch1, l⟩⟩
  · rfl
  · rfl
  · simp [execPlain.eq_def, Verium.execOp.eq_def, onStack, execEqual, ofState, pushResult_eq]
    cases pushOrVerify verify .equalVerify (vch1 = vch2) l <;> rfl

theorem refines_unary (op : UnaryOp) :
    Refines crypto flags checker sigversion fExec pc (.unary op) := by
  rintro ⟨l, altstack, vfExec, code, n⟩
  rcases l with _ | ⟨vch, l⟩
  · rfl
  · cases hnum : operand flags vch with
    | error e => simp [execPlain.eq_def, Verium.execOp.eq_def, onStack, execUnary, ofState,
        ofVch_eq, hnum]
    | ok bn => 
      have hbn := operand_bounds hnum
      simp [execPlain.eq_def, Verium.execOp.eq_def, onStack, execUnary, ofState, ofVch_eq, hnum,
        evalUnary_eq op hbn, getvch_eq (evalUnary_ne_int64Min op hbn)]

theorem refines_binary (op : BinaryOp) :
    Refines crypto flags checker sigversion fExec pc (.binary op) := by
  rintro ⟨l, altstack, vfExec, code, n⟩
  rcases l with _ | ⟨vch2, _ | ⟨vch1, l⟩⟩
  · rfl
  · rfl
  · have hsecond : stacktop (storage (vch2 :: vch1 :: l)) (-2) = .ok vch1 := by simp
    have htop : ∀ (vch : Bytes) (l : List Bytes), stacktop (storage (vch :: l)) (-1) = .ok vch := by
      simp
    simp only [execPlain.eq_def, Verium.execOp.eq_def, onStack, execBinary, ofState,
      needs_storage_cons, needs_zero, hsecond, htop, ok_bind, ofVch_eq, popstack_storage_cons]
    cases hnum1 : operand flags vch1 with
    | error e => rfl
    | ok bn1 =>
      cases hnum2 : operand flags vch2 with
      | error e => rfl
      | ok bn2 =>
        have h1 := operand_bounds hnum1
        have h2 := operand_bounds hnum2
        simp only [mapError_ok, ok_bind, evalBinary_eq op h1 h2,
          getvch_eq (evalBinary_ne_int64Min op h1 h2), pushBack_storage, verifyTop,
          htop, popstack_storage_cons, setError_eq, rejectIf]
        split
        · by_cases htrue : castToBool (scriptNumSerialize (op.eval bn1 bn2)) = true
          · simp only [htrue, if_true, ok_bind]
            rfl
          · simp only [htrue]
            rfl
        · rfl

theorem refines_within : Refines crypto flags checker sigversion fExec pc .within := by
  rintro ⟨l, altstack, vfExec, code, n⟩
  rcases l with _ | ⟨vch3, _ | ⟨vch2, _ | ⟨vch1, l⟩⟩⟩
  · rfl
  · rfl
  · rfl
  · have htops : stacktop (storage (vch3 :: vch2 :: vch1 :: l)) (-3) = .ok vch1 ∧
        stacktop (storage (vch3 :: vch2 :: vch1 :: l)) (-2) = .ok vch2 ∧
        stacktop (storage (vch3 :: vch2 :: vch1 :: l)) (-1) = .ok vch3 := by simp
    simp only [execPlain.eq_def, Verium.execOp.eq_def, onStack, execWithin, ofState,
      needs_storage_cons, needs_zero, htops, ok_bind, ofVch_eq, popstack_storage_cons,
      pushBack_storage]
    cases operand flags vch1 with
    | error e => rfl
    | ok bn1 =>
      cases operand flags vch2 with
      | error e => rfl
      | ok bn2 =>
        cases operand flags vch3 <;> rfl

theorem refines_hash (op : HashOp) :
    Refines crypto flags checker sigversion fExec pc (.hash op) := by
  rintro ⟨l, altstack, vfExec, code, n⟩
  rcases l with _ | ⟨vch, l⟩
  · rfl
  · simp [execPlain.eq_def, Verium.execOp.eq_def, onStack, execHash, ofState]

theorem refines_verify : Refines crypto flags checker sigversion fExec pc .verify := by
  rintro ⟨l, altstack, vfExec, code, n⟩
  rcases l with _ | ⟨vch, l⟩
  · rfl
  · by_cases htrue : castToBool vch = true <;>
      simp [execPlain.eq_def, Verium.execOp.eq_def, onStack, execVerify, verifyTop, ofState,
        htrue, rejectIf]

theorem refines_altStack (op : Op) (hop : op = .toAltStack ∨ op = .fromAltStack) :
    Refines crypto flags checker sigversion fExec pc op := by
  rintro ⟨l, altstack, vfExec, code, n⟩
  rcases hop with rfl | rfl
  · rcases l with _ | ⟨vch, l⟩
    · rfl
    · simp [execPlain.eq_def, Verium.execOp.eq_def, ofState]
  · rcases altstack with _ | ⟨vch, altstack⟩
    · rfl
    · simp [execPlain.eq_def, Verium.execOp.eq_def, ofState, setErrorIf, rejectIf]

theorem refines_checkLockTimeVerify :
    Refines crypto flags checker sigversion fExec pc .checkLockTimeVerify := by
  rintro ⟨l, altstack, vfExec, code, n⟩
  by_cases hflag : flags.checkLockTimeVerify = true
  · rcases l with _ | ⟨vch, l⟩
    · simp [execPlain.eq_def, Verium.execOp.eq_def, ofState, hflag, execCheckLockTimeVerify]
    · simp only [execPlain.eq_def, Verium.execOp.eq_def, ofState, hflag, execCheckLockTimeVerify,
        lockTimeOperand, CScriptNum.ofVch, call, needs_storage_cons, needs_zero, stacktop_top,
        if_true, ok_bind, not_true, if_false, bind_assoc, pure_bind]
      refine mapError_bind fun nLockTime => setErrorIf_bind Iff.rfl fun _ => ?_
      exact setErrorIf_bind Iff.rfl fun _ => rfl
  · simp [execPlain.eq_def, Verium.execOp.eq_def, ofState, hflag]
    rfl

theorem refines_checkSequenceVerify :
    Refines crypto flags checker sigversion fExec pc .checkSequenceVerify := by
  rintro ⟨l, altstack, vfExec, code, n⟩
  by_cases hflag : flags.checkSequenceVerify = true
  · rcases l with _ | ⟨vch, l⟩
    · simp [execPlain.eq_def, Verium.execOp.eq_def, ofState, hflag, execCheckSequenceVerify]
    · simp only [execPlain.eq_def, Verium.execOp.eq_def, ofState, hflag, execCheckSequenceVerify,
        lockTimeOperand, CScriptNum.ofVch, call, needs_storage_cons, needs_zero, stacktop_top,
        if_true, ok_bind, not_true, if_false, bind_assoc, pure_bind]
      refine mapError_bind fun nSequence => setErrorIf_bind Iff.rfl fun _ => ?_
      split
      next hdisabled =>
        rw [setErrorIf_eq, rejectIf_of_not fun h => h.1 hdisabled]
        rfl
      next hdisabled =>
        exact setErrorIf_bind (and_iff_right hdisabled) fun _ => rfl
  · simp [execPlain.eq_def, Verium.execOp.eq_def, ofState, hflag]
    rfl

theorem refines_opIf (negated : Bool) :
    Refines crypto flags checker sigversion fExec pc (.opIf negated) := by
  rintro ⟨l, altstack, vfExec, code, n⟩
  cases fExec with
  | false => rfl
  | true =>
    rcases l with _ | ⟨vch, l⟩
    · rfl
    · simp [execPlain.eq_def, Verium.execOp.eq_def, ofState, execIf]
      cases ifCondition flags sigversion negated vch <;> rfl

end Operations

end Verium.Machine
