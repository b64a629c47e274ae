import Verium.Script.Interpreter

/-!
Script flags only restrict. Wherever the interpreter looks at a flag it either rejects or goes on
as without the flag, so a script that succeeds under some flags succeeds under fewer, with the same
stack. `VerifyScript` has flags that add a stage; without the flag the stage is left out, and what
it would have done to the stack matters only to a check that needs the flag too.
-/

namespace Verium

open Lib

section Order

/-- Every flag of the first is one of the second. -/
structure EvalFlags.Within (flags flags' : EvalFlags) : Prop where
  strictEnc : flags.strictEnc = true → flags'.strictEnc = true
  derSig : flags.derSig = true → flags'.derSig = true
  lowS : flags.lowS = true → flags'.lowS = true
  nullDummy : flags.nullDummy = true → flags'.nullDummy = true
  minimalData : flags.minimalData = true → flags'.minimalData = true
  discourageUpgradableNops :
    flags.discourageUpgradableNops = true → flags'.discourageUpgradableNops = true
  checkLockTimeVerify : flags.checkLockTimeVerify = true → flags'.checkLockTimeVerify = true
  checkSequenceVerify : flags.checkSequenceVerify = true → flags'.checkSequenceVerify = true
  minimalIf : flags.minimalIf = true → flags'.minimalIf = true
  nullFail : flags.nullFail = true → flags'.nullFail = true
  witnessPubkeyType : flags.witnessPubkeyType = true → flags'.witnessPubkeyType = true
  constScriptCode : flags.constScriptCode = true → flags'.constScriptCode = true

variable {flags flags' : UInt32}

theorem hasFlag_of_subset (hsub : flags &&& flags' = flags) {flag : UInt32}
    (h : hasFlag flags flag = true) : hasFlag flags' flag = true := by
  simp only [hasFlag, ne_eq, decide_not, Bool.not_eq_true', decide_eq_false_iff_not] at h ⊢
  intro hzero
  apply h
  rw [← hsub, UInt32.and_assoc, hzero, UInt32.and_zero]

end Order

section Eval

variable {flags flags' : EvalFlags} (h : flags.Within flags') (crypto : Crypto)
  (checker : SignatureChecker) (sigversion : SigVersion)
include h

theorem checkSignatureEncoding_relaxes (vchSig : Bytes) :
    Relaxes (checkSignatureEncoding crypto flags vchSig)
      (checkSignatureEncoding crypto flags' vchSig) := by
  unfold checkSignatureEncoding
  refine .ite (fun _ => .refl _) fun _ => ?_
  by_cases hbad : (flags'.derSig ∨ flags'.lowS ∨ flags'.strictEnc) ∧
      ¬ isValidSignatureEncoding vchSig
  · rw [if_pos hbad]
    exact .error _ _
  · rw [if_neg hbad, if_neg (mt (And.imp_left (Or.imp h.derSig (Or.imp h.lowS h.strictEnc))) hbad)]
    have hhashtype : Relaxes
        (rejectIf (flags.strictEnc ∧ ¬ isDefinedHashtypeSignature vchSig) ScriptError.sigHashtype)
        (rejectIf (flags'.strictEnc ∧ ¬ isDefinedHashtypeSignature vchSig) .sigHashtype) :=
      .rejectIf (And.imp_left h.strictEnc)
    exact .optional h.lowS (fun _ => hhashtype) (fun _ => hhashtype) hhashtype

theorem checkPubKeyEncoding_relaxes (vchPubKey : Bytes) :
    Relaxes (checkPubKeyEncoding flags vchPubKey sigversion)
      (checkPubKeyEncoding flags' vchPubKey sigversion) :=
  .bind (.rejectIf (And.imp_left h.strictEnc)) fun _ =>
    .rejectIf (And.imp_left h.witnessPubkeyType)

theorem dropSignature_relaxes (scriptCode : CScript) (vchSig : Bytes) :
    Relaxes (dropSignature flags sigversion scriptCode vchSig)
      (dropSignature flags' sigversion scriptCode vchSig) := by
  cases sigversion with
  | witnessV0 => exact .refl _
  | base => exact .bind (.rejectIf (And.imp_right h.constScriptCode)) fun _ => .refl _

theorem checkOneSig_relaxes (scriptCode : CScript) (vchSig vchPubKey : Bytes) :
    Relaxes (checkOneSig crypto flags checker sigversion scriptCode vchSig vchPubKey)
      (checkOneSig crypto flags' checker sigversion scriptCode vchSig vchPubKey) :=
  .bind (checkSignatureEncoding_relaxes h crypto vchSig) fun _ =>
    .bind (checkPubKeyEncoding_relaxes h sigversion vchPubKey) fun _ => .refl _

theorem execCheckSig_relaxes (verify : Bool) (pbegincodehash : CScript) (stack : List Bytes) :
    Relaxes (execCheckSig crypto flags checker sigversion verify pbegincodehash stack)
      (execCheckSig crypto flags' checker sigversion verify pbegincodehash stack) := by
  match stack with
  | [] => exact .refl _
  | [_] => exact .refl _
  | vchPubKey :: vchSig :: rest =>
    refine .bind (dropSignature_relaxes h sigversion _ _) fun scriptCode => ?_
    refine .bind (checkOneSig_relaxes h crypto checker sigversion _ _ _) fun fSuccess => ?_
    exact .bind (.rejectIf (And.imp_right (And.imp_left h.nullFail))) fun _ => .refl _

theorem checkMultiSigLoop_relaxes (scriptCode : CScript) (keys sigs : List Bytes) :
    Relaxes (checkMultiSigLoop crypto flags checker sigversion scriptCode keys sigs)
      (checkMultiSigLoop crypto flags' checker sigversion scriptCode keys sigs) := by
  induction keys generalizing sigs with
  | nil =>
    cases sigs with
    | nil => exact .refl _
    | cons vchSig sigs => exact .refl _
  | cons vchPubKey keys ih =>
    cases sigs with
    | nil => exact .refl _
    | cons vchSig sigs =>
      refine .bind (checkOneSig_relaxes h crypto checker sigversion _ _ _) fun fOk => ?_
      exact .ite (fun _ => .refl _) fun _ => ih _

theorem scriptNum_relaxes (vch : Bytes) (nMaxNumSize : Nat) :
    Relaxes (scriptNum vch flags.minimalData nMaxNumSize)
      (scriptNum vch flags'.minimalData nMaxNumSize) :=
  .bind_right _ fun _ => .bind (.rejectIf (And.imp_left h.minimalData)) fun _ => .refl _

theorem execCheckMultiSig_relaxes (verify : Bool) (pbegincodehash : CScript) (nOpCount : Nat)
    (stack : List Bytes) :
    Relaxes (execCheckMultiSig crypto flags checker sigversion verify pbegincodehash nOpCount stack)
      (execCheckMultiSig crypto flags' checker sigversion verify pbegincodehash
        nOpCount stack) := by
  cases stack with
  | nil => exact .refl _
  | cons keysCount rest =>
    refine .bind ((scriptNum_relaxes h _ _).map _) fun nKeysCount => ?_
    refine .bind_right _ fun _ => .bind_right _ fun _ => ?_
    dsimp only
    cases rest.drop nKeysCount.toNat with
    | nil => exact .refl _
    | cons sigsCount rest' =>
      refine .bind ((scriptNum_relaxes h _ _).map _) fun nSigsCount => ?_
      refine .bind_right _ fun _ => .bind_right _ fun _ => ?_
      refine .bind (.foldlM (fun _ _ => dropSignature_relaxes h sigversion _ _) _ _)
        fun scriptCode => ?_
      refine .bind (checkMultiSigLoop_relaxes h crypto checker sigversion _ _ _) fun fSuccess => ?_
      refine .bind (.rejectIf (And.imp_right (And.imp_left h.nullFail))) fun _ => ?_
      cases rest'.drop nSigsCount.toNat with
      | nil => exact .refl _
      | cons dummy rest'' =>
        exact .bind (.rejectIf (And.imp_left h.nullDummy)) fun _ => .refl _

theorem lockTimeOperand_relaxes (vch : Bytes) :
    Relaxes (lockTimeOperand flags vch) (lockTimeOperand flags' vch) :=
  .bind (scriptNum_relaxes h _ _) fun _ => .refl _

theorem operand_relaxes (vch : Bytes) : Relaxes (operand flags vch) (operand flags' vch) :=
  scriptNum_relaxes h _ _

theorem ifCondition_relaxes (negated : Bool) (vch : Bytes) :
    Relaxes (ifCondition flags sigversion negated vch)
      (ifCondition flags' sigversion negated vch) :=
  .bind (.rejectIf (And.imp_right (And.imp_left h.minimalIf))) fun _ => .refl _

/-- Fewer flags give an operation fewer ways to fail, and the same result if it does not. -/
theorem execOp_relaxes (fExec : Bool) (pc : CScript) (op : Op) (s : EvalState) :
    Relaxes (execOp crypto flags checker sigversion fExec pc op s)
      (execOp crypto flags' checker sigversion fExec pc op s) := by
  obtain ⟨stack, altstack, vfExec, pbegincodehash, nOpCount⟩ := s
  cases op with
  | checkLockTimeVerify =>
    refine .skippable h.checkLockTimeVerify ?_ ?_
    · cases stack with
      | nil => exact .refl _
      | cons vch rest => exact .bind (lockTimeOperand_relaxes h vch) fun _ => .refl _
    · cases stack with
      | nil => exact .error _ _
      | cons vch rest =>
        intro t ht
        obtain ⟨nLockTime, -, ht⟩ := bind_eq_ok.mp ht
        obtain ⟨⟨⟩, -, ht⟩ := bind_eq_ok.mp ht
        exact ht
  | checkSequenceVerify =>
    refine .skippable h.checkSequenceVerify ?_ ?_
    · cases stack with
      | nil => exact .refl _
      | cons vch rest => exact .bind (lockTimeOperand_relaxes h vch) fun _ => .refl _
    · cases stack with
      | nil => exact .error _ _
      | cons vch rest =>
        intro t ht
        obtain ⟨nSequence, -, ht⟩ := bind_eq_ok.mp ht
        split at ht
        · exact ht
        · obtain ⟨⟨⟩, -, ht⟩ := bind_eq_ok.mp ht
          exact ht
  | upgradableNop => exact .bind (.rejectIf h.discourageUpgradableNops) fun _ => .refl _
  | opIf negated =>
    refine .ite (fun _ => .refl _) fun _ => ?_
    cases stack with
    | nil => exact .refl _
    | cons vch rest => exact .bind (ifCondition_relaxes h sigversion negated vch) fun _ => .refl _
  | pick | roll =>
    rcases stack with _ | ⟨vch, _ | ⟨vch', rest⟩⟩
    · exact .refl _
    · exact .refl _
    · exact .bind (operand_relaxes h vch) fun _ => .refl _
  | unary op =>
    cases stack with
    | nil => exact .refl _
    | cons vch rest => exact .bind (operand_relaxes h vch) fun _ => .refl _
  | binary op =>
    rcases stack with _ | ⟨vch2, _ | ⟨vch1, rest⟩⟩
    · exact .refl _
    · exact .refl _
    · exact .bind (operand_relaxes h vch1) fun _ => .bind (operand_relaxes h vch2) fun _ => .refl _
  | within =>
    rcases stack with _ | ⟨vch3, _ | ⟨vch2, _ | ⟨vch1, rest⟩⟩⟩
    · exact .refl _
    · exact .refl _
    · exact .refl _
    · exact .bind (operand_relaxes h vch1) fun _ => .bind (operand_relaxes h vch2) fun _ =>
        .bind (operand_relaxes h vch3) fun _ => .refl _
  | checkSig verify =>
    exact .bind (execCheckSig_relaxes h crypto checker sigversion _ _ _) fun _ => .refl _
  | checkMultiSig verify =>
    exact .bind (execCheckMultiSig_relaxes h crypto checker sigversion _ _ _ _) fun _ => .refl _
  | verify | toAltStack | hash =>
    cases stack with
    | nil => exact .refl _
    | cons vch rest => exact .refl _
  | equal verify =>
    rcases stack with _ | ⟨vch2, _ | ⟨vch1, rest⟩⟩
    · exact .refl _
    · exact .refl _
    · exact .refl _
  | _ => exact .refl _

theorem evalStep_relaxes (s : EvalState) (read : ScriptRead) :
    Relaxes (evalStep crypto flags checker sigversion s read)
      (evalStep crypto flags' checker sigversion s read) := by
  cases read with
  | bad => exact .refl _
  | op opcode vchPushValue pc =>
    refine .bind_right _ fun _ => .bind_right _ fun _ => .bind_right _ fun _ => ?_
    refine .bind (.rejectIf (And.imp_right (And.imp_right h.constScriptCode))) fun _ => ?_
    refine .ite (fun _ => ?_) fun _ => .ite (fun _ => ?_) fun _ => .refl _
    · exact .bind (.rejectIf (And.imp_left h.minimalData)) fun _ => .refl _
    · exact .bind (execOp_relaxes h crypto checker sigversion _ _ _ _) fun _ => .refl _

theorem evalScriptWith_relaxes (stack : List Bytes) (script : CScript) :
    Relaxes (evalScriptWith crypto flags checker sigversion stack script)
      (evalScriptWith crypto flags' checker sigversion stack script) :=
  .bind_right _ fun _ =>
    .bind (.foldlM (evalStep_relaxes h crypto checker sigversion) _ _) fun _ => .refl _

end Eval

section Verify

variable {flags flags' : UInt32} (hsub : flags &&& flags' = flags) (crypto : Crypto)
  (checker : SignatureChecker)
include hsub

theorem evalScript_relaxes (stack : List Bytes) (script : CScript) (sigversion : SigVersion) :
    Relaxes (evalScript crypto stack script flags checker sigversion)
      (evalScript crypto stack script flags' checker sigversion) := by
  have hwithin : (evalFlags flags).Within (evalFlags flags') := by
    constructor <;> exact hasFlag_of_subset hsub
  exact evalScriptWith_relaxes hwithin crypto checker sigversion stack script

theorem verifyWitnessProgram_relaxes (witness : CScriptWitness) (witversion : Nat)
    (program : Bytes) :
    Relaxes (verifyWitnessProgram crypto flags checker witness witversion program)
      (verifyWitnessProgram crypto flags' checker witness witversion program) := by
  refine .ite (fun _ => ?_) fun _ => .rejectIf (hasFlag_of_subset hsub)
  refine .bind_right _ fun ran => .bind_right _ fun _ => ?_
  exact .bind (evalScript_relaxes hsub crypto checker _ _ _) fun _ => .refl _

/-- Without the flag for it the witness stage succeeds; with the flag it does the same. -/
theorem witnessStage_ok {script : CScript} {witness : CScriptWitness} {wellFormed : Bool}
    {malleated : ScriptError} {had' : Bool}
    (h : witnessStage crypto flags' checker script witness wellFormed malleated = .ok had') :
    ∃ had, witnessStage crypto flags checker script witness wellFormed malleated = .ok had ∧
      (hasFlag flags scriptVerifyWitness = true → had = had') := by
  by_cases hwit : hasFlag flags scriptVerifyWitness = true
  · refine ⟨had', ?_, fun _ => rfl⟩
    unfold witnessStage at h ⊢
    rw [if_neg (not_not.mpr (hasFlag_of_subset hsub hwit))] at h
    rw [if_neg (not_not.mpr hwit)]
    cases hprogram : isWitnessProgram script with
    | none =>
      rw [hprogram] at h
      exact h
    | some program =>
      rw [hprogram] at h
      exact Relaxes.bind_right _ (fun _ => .bind (verifyWitnessProgram_relaxes hsub crypto checker
        witness program.1 program.2) fun _ => .refl _) _ h
  · refine ⟨false, ?_, fun hflag => absurd hflag hwit⟩
    unfold witnessStage
    rw [if_pos hwit]
    rfl

theorem scriptHashStage_ok {scriptSig : CScript} {witness : CScriptWitness}
    {stackCopy : List Bytes} {result' : List Bytes × Bool}
    (h : scriptHashStage crypto flags' checker scriptSig witness stackCopy = .ok result') :
    ∃ result, scriptHashStage crypto flags checker scriptSig witness stackCopy = .ok result ∧
      (hasFlag flags scriptVerifyWitness = true → result = result') := by
  unfold scriptHashStage at h ⊢
  obtain ⟨⟨⟩, hpush, h⟩ := bind_eq_ok.mp h
  rw [hpush, ok_bind]
  cases stackCopy with
  | nil => cases h
  | cons pubKeySerialized stack =>
    obtain ⟨stack', heval, h⟩ := bind_eq_ok.mp h
    obtain ⟨⟨⟩, htrue, h⟩ := bind_eq_ok.mp h
    obtain ⟨had', hstage, h⟩ := bind_eq_ok.mp h
    obtain ⟨had, hstage, hsame⟩ := witnessStage_ok hsub crypto checker (mapError_eq_ok.mp hstage)
    have heval := (evalScript_relaxes hsub crypto checker _ _ _).mapError
      VerifyFailure.script _ heval
    dsimp only
    rw [heval, ok_bind, htrue, ok_bind, hstage]
    refine ⟨_, rfl, ?_⟩
    intro hwit
    rw [hsame hwit]
    exact Except.ok.inj h

theorem extraStage_ok {scriptSig scriptPubKey : CScript} {witness : CScriptWitness}
    {stackCopy stack stack' : List Bytes} {result' : List Bytes × Bool}
    (hp2sh : hasFlag flags scriptVerifyWitness = true → hasFlag flags scriptVerifyP2SH = true)
    (hstack : hasFlag flags scriptVerifyWitness = true → stack = stack')
    (h : extraStage crypto flags' checker scriptSig scriptPubKey witness stackCopy stack' =
      .ok result') :
    ∃ result, extraStage crypto flags checker scriptSig scriptPubKey witness stackCopy stack =
        .ok result ∧
      (hasFlag flags scriptVerifyWitness = true → result = result') := by
  unfold extraStage at h ⊢
  split
  · next happlies =>
    rw [if_pos ⟨hasFlag_of_subset hsub happlies.1, happlies.2⟩] at h
    exact scriptHashStage_ok hsub crypto checker h
  · next hskipped =>
    refine ⟨_, rfl, ?_⟩
    intro hwit
    have hnot : ¬ isPayToScriptHash scriptPubKey := fun hscript => hskipped ⟨hp2sh hwit, hscript⟩
    rw [if_neg (fun happlies => hnot happlies.2)] at h
    rw [hstack hwit]
    exact Except.ok.inj h

/-- What passes with more flags passes with fewer. The clean-stack test is made after the witness
stage, so its flag asks for that of the witness, and that for the one of the script hash. -/
theorem verifyScript_of_subset
    (hclean : hasFlag flags scriptVerifyCleanStack = true →
      hasFlag flags scriptVerifyWitness = true)
    (hp2sh : hasFlag flags scriptVerifyWitness = true → hasFlag flags scriptVerifyP2SH = true)
    {scriptSig scriptPubKey : CScript} {witness : CScriptWitness}
    (h : verifyScript crypto flags' checker scriptSig scriptPubKey witness = .ok ()) :
    verifyScript crypto flags checker scriptSig scriptPubKey witness = .ok () := by
  unfold verifyScript at h ⊢
  obtain ⟨⟨⟩, hpush, h⟩ := bind_eq_ok.mp h
  obtain ⟨stackCopy, hsig, h⟩ := bind_eq_ok.mp h
  obtain ⟨stack, hpubKey, h⟩ := bind_eq_ok.mp h
  obtain ⟨⟨⟩, htrue, h⟩ := bind_eq_ok.mp h
  obtain ⟨bare', hbare, h⟩ := bind_eq_ok.mp h
  obtain ⟨result', hextra, h⟩ := bind_eq_ok.mp h
  obtain ⟨⟨⟩, hcleanStack, hunexpected⟩ := bind_eq_ok.mp h
  obtain ⟨bare, hbare, hbareSame⟩ := witnessStage_ok hsub crypto checker (mapError_eq_ok.mp hbare)
  have hstackSame : hasFlag flags scriptVerifyWitness = true →
      (if bare then resizeToOne stack else stack) = if bare' then resizeToOne stack else stack :=
    fun hwit => by rw [hbareSame hwit]
  obtain ⟨result, hextra, hresultSame⟩ := extraStage_ok hsub crypto checker hp2sh hstackSame hextra
  have hpush := Relaxes.rejectIf (And.imp_left (hasFlag_of_subset hsub)) () hpush
  have hsig := (evalScript_relaxes hsub crypto checker _ _ _).mapError VerifyFailure.script _ hsig
  have hpubKey :=
    (evalScript_relaxes hsub crypto checker _ _ _).mapError VerifyFailure.script _ hpubKey
  rw [hpush, ok_bind, hsig, ok_bind, hpubKey, ok_bind, htrue, ok_bind, hbare]
  change (extraStage _ _ _ _ _ _ _ _ >>= _) = _
  rw [hextra, ok_bind]
  refine bind_eq_ok.mpr ⟨(), ?_, ?_⟩
  · refine checkWhen_eq_ok.mpr fun hflag => ?_
    have hwit := hclean hflag
    rw [hresultSame hwit, rejectIf_of_not (not_not.mpr (hp2sh hwit)), ok_bind,
      rejectIf_of_not (not_not.mpr hwit), ok_bind]
    obtain ⟨-, -, hrest⟩ :=
      bind_eq_ok.mp (checkWhen_eq_ok.mp hcleanStack (hasFlag_of_subset hsub hflag))
    obtain ⟨-, -, hone⟩ := bind_eq_ok.mp hrest
    exact hone
  · refine checkWhen_eq_ok.mpr fun hwit => ?_
    rw [hresultSame hwit, hbareSame hwit, rejectIf_of_not (not_not.mpr (hp2sh hwit)), ok_bind]
    obtain ⟨-, -, hnone⟩ :=
      bind_eq_ok.mp (checkWhen_eq_ok.mp hunexpected (hasFlag_of_subset hsub hwit))
    exact hnone

end Verify

end Verium
