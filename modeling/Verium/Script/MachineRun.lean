import Verium.Script.Multisig
import Verium.Script.PayToScriptHash

/-!
A run of the machine is a run of the interpreter: turn by turn, for a whole script, and for
`VerifyScript`. The number of turns the loops are given is always enough.
-/

namespace Verium.Machine

open Lib Lib.Traced

variable {crypto : Crypto} {flags : EvalFlags} {checker : SignatureChecker}
  {sigversion : SigVersion} {fExec : Bool} {pc : CScript}

/-- The interpreter on an operation that only rearranges the stack. -/
theorem execOp_stackOp {op : Op} (hop : op ∈ stackOps) {s : EvalState} :
    Verium.execOp crypto flags checker sigversion fExec pc op s =
      match Verium.stackOp op s.stack with
      | none => .error .invalidStackOperation
      | some stack => .ok { s with stack } := by
  cases op <;> simp [stackOps] at hop <;> rfl

theorem refines_stackOp {op : Op} (hop : op ∈ stackOps) :
    Refines crypto flags checker sigversion fExec pc op := by
  intro s
  have hmachine : execPlain crypto flags checker sigversion fExec pc op (ofState s) =
      onStack (ofState s) (stackOp op) := by
    cases op <;> simp [stackOps] at hop <;> rfl
  rw [hmachine, execOp_stackOp hop, onStack]
  change stackOp op (storage s.stack) >>= _ = _
  rw [stackOp_eq op s.stack hop]
  cases Verium.stackOp op s.stack <;> rfl

/-- An operation that checks no signature. -/
def isPlain : Op → Bool
  | .checkSig _ | .checkMultiSig _ => false
  | _ => true

theorem execPlain_eq (op : Op) (hplain : isPlain op = true)
    (hop : ∀ n, op = .smallInt n → n ≠ CScriptNum.int64Min) :
    Refines crypto flags checker sigversion fExec pc op := by
  cases op with
  | smallInt n =>
    rintro ⟨l, altstack, vfExec, code, m⟩
    simp only [execPlain.eq_def, Verium.execOp.eq_def, onStack, ofState, getvch_eq (hop n rfl),
      ok_bind, pushBack_storage, pure_eq_ok, embed_ok]
  | nop | codeSeparator | opReturn | bad => exact fun s => rfl
  | checkLockTimeVerify => exact refines_checkLockTimeVerify
  | checkSequenceVerify => exact refines_checkSequenceVerify
  | upgradableNop =>
    rintro ⟨l, altstack, vfExec, code, m⟩
    exact (congrArg (· >>= _) setErrorIf_eq).trans (mapError_bind fun _ => rfl)
  | opIf negated => exact refines_opIf negated
  | opElse =>
    rintro ⟨l, altstack, _ | ⟨fValue, outer⟩, code, m⟩ <;> rfl
  | endIf =>
    rintro ⟨l, altstack, _ | ⟨fValue, outer⟩, code, m⟩ <;> rfl
  | verify => exact refines_verify
  | toAltStack => exact refines_altStack .toAltStack (.inl rfl)
  | fromAltStack => exact refines_altStack .fromAltStack (.inr rfl)
  | pick | roll => exact refines_pickRoll (by simp)
  | equal verify => exact refines_equal verify
  | unary op => exact refines_unary op
  | binary op => exact refines_binary op
  | within => exact refines_within
  | hash op => exact refines_hash op
  | checkSig verify => cases hplain
  | checkMultiSig verify => cases hplain
  | drop2 | dup2 | dup3 | over2 | rot2 | swap2 | ifDup | depth | drop | dup | nip | «over» | rot
  | swap | tuck | size => exact refines_stackOp (by decide)

theorem execOp_checkSig_result (verify : Bool) (s : EvalState) :
    (execOp crypto flags checker sigversion fExec pc (.checkSig verify) (ofState s)).result =
      embed ofState
        (Verium.execOp crypto flags checker sigversion fExec pc (.checkSig verify) s) := by
  obtain ⟨l, altstack, vfExec, code, n⟩ := s
  rcases l with _ | ⟨vchPubKey, _ | ⟨vchSig, l⟩⟩
  · rfl
  · rfl
  have hsecond : stacktop (storage (vchPubKey :: vchSig :: l)) (-2) = .ok vchSig := by simp
  simp only [execOp.eq_def, Verium.execOp.eq_def, execCheckSig, Verium.execCheckSig, checkOneSig,
    checkSig, ofState, needs_storage_cons, needs_zero, hsecond, stacktop_top, result_bind,
    result_liftM, result_pure, ok_bind, call, result_emit, setErrorIf_eq, popstack_storage_cons,
    pushResult_eq, bind_assoc, pure_bind]
  refine mapError_bind fun scriptCode => ?_
  refine mapError_bind fun _ => ?_
  refine mapError_bind fun _ => ?_
  refine mapError_bind fun _ => ?_
  exact embed_bind fun stack => rfl

theorem execOp_checkMultiSig_result (verify : Bool) (s : EvalState) :
    (execOp crypto flags checker sigversion fExec pc (.checkMultiSig verify) (ofState s)).result =
      embed ofState
        (Verium.execOp crypto flags checker sigversion fExec pc (.checkMultiSig verify) s) := by
  obtain ⟨l, altstack, vfExec, code, n⟩ := s
  simp only [execOp.eq_def, Verium.execOp.eq_def, ofState, result_bind, execCheckMultiSig_result]
  exact embed_bind fun p => rfl

theorem execOp_result (op : Op) (hop : ∀ n, op = .smallInt n → n ≠ CScriptNum.int64Min)
    (s : EvalState) :
    (execOp crypto flags checker sigversion fExec pc op (ofState s)).result =
      embed ofState (Verium.execOp crypto flags checker sigversion fExec pc op s) := by
  cases hplain : isPlain op with
  | true =>
    rw [← execPlain_eq op hplain hop]
    cases op <;> first | rfl | cases hplain
  | false =>
    cases op with
    | checkSig verify => exact execOp_checkSig_result verify s
    | checkMultiSig verify => exact execOp_checkMultiSig_result verify s
    | _ => cases hplain

theorem ofOpcode_smallInt {opcode : UInt8} {n : Int} (h : Op.ofOpcode opcode = .smallInt n) :
    n = opcode.toNat - 0x50 ∧ (opcode = 0x4f ∨ 0x51 ≤ opcode ∧ opcode ≤ 0x60) := by
  unfold Op.ofOpcode at h
  split at h
  next hsmall => exact ⟨(Op.smallInt.inj h).symm, hsmall⟩
  next => split at h <;> cases h

/-- What a turn of the interpreter does with the operation it has read. -/
def stepOperation (crypto : Crypto) (flags : EvalFlags) (checker : SignatureChecker)
    (sigversion : SigVersion) (fExec : Bool) (opcode : UInt8) (vchPushValue : Bytes) (pc : CScript)
    (s : EvalState) : Except ScriptError EvalState :=
  if fExec ∧ opcode ≤ Opcode.pushData4 then do
    rejectIf (flags.minimalData ∧ ¬ checkMinimalPush vchPushValue opcode) .minimalData
    return { s with stack := vchPushValue :: s.stack }
  else if fExec ∨ (Opcode.opIf ≤ opcode ∧ opcode ≤ Opcode.opEndIf) then
    Verium.execOp crypto flags checker sigversion fExec pc (Op.ofOpcode opcode) s
  else .ok s

/-- The count of operations after one more. -/
def countedOps (opcode : UInt8) (nOpCount : Nat) : Nat :=
  if Opcode.op16 < opcode then nOpCount + 1 else nOpCount

theorem evalStep_eq (opcode : UInt8) (vchPushValue : Bytes) (s : EvalState) :
    evalStep crypto flags checker sigversion s (.op opcode vchPushValue pc) = (do
      rejectIf (maxScriptElementSize < vchPushValue.length) .pushSize
      rejectIf (Opcode.op16 < opcode ∧ maxOpsPerScript < countedOps opcode s.nOpCount) .opCount
      rejectIf (isDisabledOpcode opcode) .disabledOpcode
      rejectIf (opcode = Opcode.opCodeSeparator ∧ sigversion = .base ∧ flags.constScriptCode)
        .opCodeSeparator
      let s ← stepOperation crypto flags checker sigversion (s.vfExec.all id) opcode vchPushValue pc
        { s with nOpCount := countedOps opcode s.nOpCount }
      rejectIf (maxStackSize < s.stack.length + s.altstack.length) .stackSize
      return s) := by
  simp only [evalStep, stepOperation, countedOps]
  congr 1
  funext _
  congr 1
  funext _
  congr 1
  funext _
  congr 1
  funext _
  split
  · simp only [bind_assoc]
  · split <;> rfl

theorem execOperation_result (opcode : UInt8) (vchPushValue : Bytes) (s : EvalState) :
    (execOperation crypto flags checker sigversion fExec opcode vchPushValue pc
      (ofState s)).result =
      embed ofState
        (stepOperation crypto flags checker sigversion fExec opcode vchPushValue pc s) := by
  unfold execOperation stepOperation
  split
  · simp only [result_bind, result_liftM, result_emit, ok_bind, setErrorIf_eq, result_pure]
    refine mapError_bind fun _ => ?_
    simp only [ofState, pushBack_storage]
    rfl
  · split
    · simp only [result_bind, result_emit, ok_bind]
      refine execOp_result (Op.ofOpcode opcode) (fun n hn => ?_) s
      have hsmall := (ofOpcode_smallInt hn).1
      simp only [CScriptNum.int64Min]
      omega
    · rfl

theorem countedOps_eq (opcode : UInt8) (s : EvalState) :
    (if Opcode.op16 < opcode then (ofState s).nOpCount + 1 else (ofState s).nOpCount) =
      (countedOps opcode s.nOpCount : Int) := by
  simp only [ofState, countedOps]
  split <;> simp

theorem evalTurn_result (opcode : UInt8) (vchPushValue : Bytes) (s : EvalState) :
    (evalTurn crypto flags checker sigversion opcode vchPushValue pc (ofState s)).result =
      embed ofState (evalStep crypto flags checker sigversion s (.op opcode vchPushValue pc)) := by
  have hlimit : (Opcode.op16 < opcode ∧ (maxOpsPerScript : Int) < countedOps opcode s.nOpCount) =
      (Opcode.op16 < opcode ∧ maxOpsPerScript < countedOps opcode s.nOpCount) := by
    simp
  simp only [evalTurn, evalStep_eq, result_bind, result_liftM, setErrorIf_eq, countedOps_eq]
  refine mapError_bind fun _ => ?_
  simp only [hlimit]
  refine mapError_bind fun _ => ?_
  refine mapError_bind fun _ => ?_
  refine mapError_bind fun _ => ?_
  change (execOperation crypto flags checker sigversion _ opcode vchPushValue pc
    (ofState { s with nOpCount := countedOps opcode s.nOpCount })).result >>= _ = _
  rw [execOperation_result]
  refine embed_bind fun t => ?_
  simp only [result_emit, ok_bind, result_pure]
  change (rejectIf (maxStackSize < (storage t.stack).length + (storage t.altstack).length)
    _).mapError _ >>= _ = _
  simp only [length_storage]
  exact mapError_bind fun _ => rfl

theorem scriptOps_of_bad {op : UInt8} {tail : CScript} (h : getScriptOp (op :: tail) = none) :
    scriptOps (op :: tail) = [.bad] := by
  rw [scriptOps, List.length_cons, readOps, h]
  simp

theorem evalLoop_result (turns : Nat) (pc : CScript) (s : EvalState) (hturns : pc.length ≤ turns) :
    (evalLoop crypto flags checker sigversion turns pc (ofState s)).result =
      embed ofState ((scriptOps pc).foldlM (evalStep crypto flags checker sigversion) s) := by
  induction turns generalizing pc s with
  | zero =>
    obtain rfl : pc = [] := List.eq_nil_of_length_eq_zero (by omega)
    rfl
  | succ turns ih =>
    cases pc with
    | nil => rfl
    | cons op tail =>
      unfold evalLoop
      cases hop : getScriptOp (op :: tail) with
      | none =>
        rw [scriptOps_of_bad hop]
        rfl
      | some read =>
        obtain ⟨opcode, vch, rest⟩ := read
        have hlen := getScriptOp_length hop
        rw [scriptOps_of_getScriptOp hop, List.foldlM_cons, result_bind, evalTurn_result]
        exact embed_bind fun t => ih rest t (by omega)

/-- The state `EvalScript` starts in. -/
def startState (stack : List Bytes) (script : CScript) : EvalState where
  stack := stack
  altstack := []
  vfExec := []
  pbegincodehash := script
  nOpCount := 0

theorem evalScriptWith_result (stack : List Bytes) (script : CScript) :
    (evalScriptWith crypto flags checker sigversion (storage stack) script).result =
      embed storage (Verium.evalScriptWith crypto flags checker sigversion stack script) := by
  simp only [evalScriptWith, Verium.evalScriptWith, result_bind, result_liftM, setErrorIf_eq]
  refine mapError_bind fun _ => ?_
  change (evalLoop crypto flags checker sigversion script.length script
    (ofState (startState stack script))).result >>= _ = _
  rw [evalLoop_result script.length script _ le_rfl]
  refine embed_bind fun t => ?_
  exact mapError_bind fun _ => rfl

theorem evalScript_result (stack : List Bytes) (script : CScript) (flags : UInt32) :
    (evalScript crypto (storage stack) script flags checker sigversion).result =
      embed storage (Verium.evalScript crypto stack script flags checker sigversion) :=
  evalScriptWith_result stack script

section Verify

variable {flags : UInt32}

/-- A result of `VerifyScript`, as one of the machine. -/
def embedVerify {α β : Type} (f : α → β) (x : Except VerifyFailure α) : Except Stop β :=
  (x.map f).mapError .ofFailure

theorem embedVerify_bind {α β γ δ : Type} {f : α → β} {g : γ → δ} {x : Except VerifyFailure α}
    {k : α → Except VerifyFailure γ} {m : β → Step δ} (h : ∀ a, m (f a) = embedVerify g (k a)) :
    embedVerify f x >>= m = embedVerify g (x >>= k) := by
  cases x with
  | error e => rfl
  | ok a => exact h a

theorem embedVerify_mapError {α β : Type} (f : α → β) (x : Except ScriptError α) :
    embedVerify f (x.mapError .script) = embed f x := by
  cases x <;> rfl

theorem requireTrue_eq (l : List Bytes) :
    requireTrue (storage l) = embed id (Verium.requireTrue l) := by
  cases l with
  | nil => rfl
  | cons top rest =>
    have hback : back (storage (top :: rest)) = .ok top := by simp [back]
    have hne : ¬ storage (top :: rest) = [] := by simp
    simp only [requireTrue, setErrorIf_eq, rejectIf_of_not hne, hback, mapError_ok, ok_bind,
      Verium.requireTrue]
    simp only [rejectIf]
    split <;> rfl

theorem verifyWitnessProgram_result (witness : CScriptWitness) (witversion : Nat)
    (program : Bytes) :
    (verifyWitnessProgram crypto flags checker witness witversion program).result =
      embed id (Verium.verifyWitnessProgram crypto flags checker witness witversion program) := by
  unfold verifyWitnessProgram Verium.verifyWitnessProgram
  split
  · simp only [result_bind, result_liftM, call, setErrorIf_eq]
    apply mapError_bind
    rintro ⟨scriptPubKey, stack⟩
    refine mapError_bind fun _ => ?_
    rw [evalScript_result]
    refine embed_bind fun stack => ?_
    simp only [length_storage]
    refine mapError_bind fun _ => requireTrue_eq stack
  · simp only [result_liftM, setErrorIf_eq]
    simp only [rejectIf]
    split <;> rfl

theorem witnessStage_result (script : CScript) (witness : CScriptWitness) (wellFormed : Bool)
    (malleated : ScriptError) :
    (witnessStage crypto flags checker script witness wellFormed malleated).result =
      embed id (Verium.witnessStage crypto flags checker script witness wellFormed malleated) := by
  unfold witnessStage Verium.witnessStage
  split
  · rfl
  · cases isWitnessProgram script with
    | none => rfl
    | some program =>
      simp only [result_bind, result_liftM, setErrorIf_eq]
      refine mapError_bind fun _ => ?_
      rw [verifyWitnessProgram_result]
      exact embed_bind fun _ => rfl

theorem resizeToOne_eq (hadWitness : Bool) (l : List Bytes) :
    (if hadWitness then (storage l).take 1 else storage l) =
      storage (if hadWitness then resizeToOne l else l) := by
  cases hadWitness with
  | false => rfl
  | true => simp [storage, resizeToOne, List.take_reverse]

theorem setErrorIf_embedVerify (c : Prop) [Decidable c] (serror : ScriptError) :
    setErrorIf c serror = embedVerify id (rejectIf c (.script serror)) := by
  simp only [setErrorIf, rejectIf]
  split <;> rfl

theorem scriptHashStage_result (scriptSig : CScript) (witness : CScriptWitness)
    (stackCopy : List Bytes) :
    (scriptHashStage crypto flags checker scriptSig witness (storage stackCopy)).result =
      embedVerify (fun p => (storage p.1, p.2))
        (Verium.scriptHashStage crypto flags checker scriptSig witness stackCopy) := by
  simp only [scriptHashStage, Verium.scriptHashStage, result_bind, result_liftM,
    setErrorIf_embedVerify]
  refine embedVerify_bind fun _ => ?_
  cases stackCopy with
  | nil => rfl
  | cons pubKeySerialized stack =>
    have hback : back (storage (pubKeySerialized :: stack)) = .ok pubKeySerialized := by simp [back]
    have hne : ¬ storage (pubKeySerialized :: stack) = [] := by simp
    simp only [rejectIf_of_not hne, hback, popstack_storage_cons, ok_bind, evalScript_result,
      ← embedVerify_mapError]
    refine embedVerify_bind fun stack => ?_
    rw [requireTrue_eq, ← embedVerify_mapError]
    refine embedVerify_bind fun _ => ?_
    rw [witnessStage_result, ← embedVerify_mapError]
    refine embedVerify_bind fun hadWitness => ?_
    simp only [id_eq, resizeToOne_eq]
    rfl

theorem extraStage_result (scriptSig scriptPubKey : CScript) (witness : CScriptWitness)
    (stackCopy stack : List Bytes) :
    (extraStage crypto flags checker scriptSig scriptPubKey witness (storage stackCopy)
      (storage stack)).result =
      embedVerify (fun p => (storage p.1, p.2)) (Verium.extraStage crypto flags checker scriptSig
        scriptPubKey witness stackCopy stack) := by
  unfold extraStage Verium.extraStage
  split
  · exact scriptHashStage_result scriptSig witness stackCopy
  · rfl

/-- `VerifyScript` of the machine ends as `VerifyScript` of the interpreter, and not in a failed
assertion if its flags are allowed. -/
theorem verifyScript_result (scriptSig scriptPubKey : CScript) (witness : CScriptWitness) :
    (verifyScript crypto flags checker scriptSig scriptPubKey witness).result =
      embedVerify id
        (Verium.verifyScript crypto flags checker scriptSig scriptPubKey witness) ∧
    (FlagsAllowed flags → ∀ condition,
      Verium.verifyScript crypto flags checker scriptSig scriptPubKey witness ≠
        .error (.assertion condition)) := by
  refine ⟨?_, fun hallowed condition hfails => ?_⟩
  case refine_2 =>
    have hends := verifyScript_ends crypto checker hallowed scriptSig scriptPubKey witness
    rw [hfails] at hends
    exact hends
  have hempty : evalScript crypto [] scriptSig flags checker .base =
      evalScript crypto (storage []) scriptSig flags checker .base := rfl
  simp only [verifyScript, Verium.verifyScript, result_bind, result_liftM,
    setErrorIf_embedVerify, hempty]
  refine embedVerify_bind fun _ => ?_
  rw [evalScript_result, ← embedVerify_mapError]
  refine embedVerify_bind fun stackCopy => ?_
  rw [evalScript_result, ← embedVerify_mapError]
  refine embedVerify_bind fun stack => ?_
  rw [requireTrue_eq, ← embedVerify_mapError]
  refine embedVerify_bind fun _ => ?_
  rw [witnessStage_result, ← embedVerify_mapError]
  refine embedVerify_bind fun bareWitness => ?_
  simp only [id_eq, resizeToOne_eq, extraStage_result]
  apply embedVerify_bind
  rintro ⟨stack, p2shWitness⟩
  have hclean : checkCleanStack flags (storage stack) = checkCleanStack flags stack := by
    simp only [checkCleanStack, length_storage]
  simp only [hclean]
  cases checkCleanStack flags stack with
  | error e => rfl
  | ok _ => cases checkUnexpectedWitness flags (bareWitness || p2shWitness) witness <;> rfl

/-- An empty scriptSig for a script hash: the evaluation fails before the redeem script is asked
for. -/
theorem emptyScriptSig_result :
    (verifyScript sampleCrypto mandatoryScriptVerifyFlags
        (transactionSignatureChecker sampleCrypto ⟨1, 100, [], [], 0⟩ 0) []
        (payToScriptHash (List.replicate 20 0)) []).result =
      .error (.script .invalidStackOperation) ∧
    ∀ condition, Verium.verifyScript sampleCrypto mandatoryScriptVerifyFlags
        (transactionSignatureChecker sampleCrypto ⟨1, 100, [], [], 0⟩ 0) []
        (payToScriptHash (List.replicate 20 0)) [] ≠ .error (.assertion condition) := by
  obtain ⟨hsame, hends⟩ := @verifyScript_result sampleCrypto
    (transactionSignatureChecker sampleCrypto ⟨1, 100, [], [], 0⟩ 0) mandatoryScriptVerifyFlags []
    (payToScriptHash (List.replicate 20 0)) []
  refine ⟨?_, hends (by decide)⟩
  rw [hsame]
  decide +kernel

end Verify

end Verium.Machine
