import Verium.Script.Trace

/-!
What `VerifyScript` asks of the input that spends a pay-to-script-hash output: with no flags
set, only that the last element the scriptSig leaves has the hash in the output; with the
mandatory flags, that this element, run as a script, succeeds as well.
-/

namespace Verium

open Lib

/-- `OP_HASH160 <hash> OP_EQUAL`. -/
def payToScriptHash (hash : Bytes) : CScript :=
  Opcode.opHash160 :: 0x14 :: (hash ++ [Opcode.opEqual])

theorem isPayToScriptHash_iff {script : CScript} :
    isPayToScriptHash script = true ↔
      ∃ hash : Bytes, hash.length = 20 ∧ script = payToScriptHash hash := by
  constructor
  · intro h
    simp only [isPayToScriptHash, Bool.and_eq_true, decide_eq_true_eq] at h
    obtain ⟨⟨⟨hlen, hfirst⟩, hsecond⟩, hlast⟩ := h
    match script, hlen, hfirst, hsecond, hlast with
    | first :: second :: rest, hlen, hfirst, hsecond, hlast =>
      simp only [List.length_cons] at hlen
      simp only [List.getElem?_cons_zero, List.getElem?_cons_succ, Option.some.injEq]
        at hfirst hsecond hlast
      subst hfirst hsecond
      refine ⟨rest.take 20, by rw [List.length_take]; omega, ?_⟩
      have hdrop : rest.drop 20 = [Opcode.opEqual] := by
        obtain ⟨hlt, hget⟩ := List.getElem?_eq_some_iff.mp hlast
        rw [List.drop_eq_getElem_cons hlt, hget, List.drop_eq_nil_of_le (by omega)]
      rw [payToScriptHash, ← hdrop, List.take_append_drop]
  · rintro ⟨hash, hlen, rfl⟩
    simp [isPayToScriptHash, payToScriptHash, hlen]

theorem scriptOps_payToScriptHash {hash : Bytes} (hlen : hash.length = 20) :
    scriptOps (payToScriptHash hash) =
      [.op Opcode.opHash160 [] (0x14 :: (hash ++ [Opcode.opEqual])),
        .op 0x14 hash [Opcode.opEqual], .op Opcode.opEqual [] []] := by
  have hhash : getScriptOp (payToScriptHash hash) =
      some (Opcode.opHash160, [], 0x14 :: (hash ++ [Opcode.opEqual])) := rfl
  have hpush : getScriptOp (0x14 :: (hash ++ [Opcode.opEqual])) =
      some (0x14, hash, [Opcode.opEqual]) := by
    have hlt : (0x14 : UInt8) < Opcode.pushData1 := by decide
    have htoNat : (0x14 : UInt8).toNat = hash.length := by rw [hlen]; rfl
    simp [getScriptOp, hlt, takeOperand, htoNat]
  have hequal : getScriptOp [Opcode.opEqual] = some (Opcode.opEqual, [], []) := rfl
  rw [scriptOps_of_getScriptOp hhash, scriptOps_of_getScriptOp hpush,
    scriptOps_of_getScriptOp hequal, scriptOps_nil]

section Steps

variable {crypto : Crypto} {flags : EvalFlags} {checker : SignatureChecker}
  {sigversion : SigVersion} {s t : EvalState} {opcode : UInt8} {vch : Bytes} {pc : CScript}

theorem evalStep_hash160 (hexec : s.vfExec.all id = true)
    (h : evalStep crypto flags checker sigversion s (.op Opcode.opHash160 vch pc) = .ok t) :
    ∃ top rest, s.stack = top :: rest ∧
      t.stack = HashOp.eval crypto .hash160 top :: rest ∧ t.vfExec.all id = true := by
  obtain ⟨n, hrun⟩ := evalStep_ok hexec h
  rw [if_neg (by decide), show Op.ofOpcode Opcode.opHash160 = .hash .hash160 from by decide] at hrun
  cases hstack : s.stack with
  | nil =>
    simp only [execOp, hstack, stackOp] at hrun
    cases hrun
  | cons top rest =>
    simp only [execOp, hstack] at hrun
    cases hrun
    exact ⟨top, rest, rfl, rfl, hexec⟩

theorem evalStep_equal {vch1 vch2 : Bytes} {rest : List Bytes} (hexec : s.vfExec.all id = true)
    (hstack : s.stack = vch2 :: vch1 :: rest)
    (h : evalStep crypto flags checker sigversion s (.op Opcode.opEqual vch pc) = .ok t) :
    t.stack = vchOfBool (vch1 = vch2) :: rest := by
  obtain ⟨n, hrun⟩ := evalStep_ok hexec h
  rw [if_neg (by decide), show Op.ofOpcode Opcode.opEqual = .equal false from by decide] at hrun
  simp only [execOp, hstack, pushOrVerify, Bool.false_eq_true, if_false] at hrun
  cases hrun
  rfl

/-- Running `OP_HASH160 <hash> OP_EQUAL` compares the hash of the top element. -/
theorem evalScript_payToScriptHash {hash : Bytes} {flags : UInt32} {stack stack' : List Bytes}
    (hlen : hash.length = 20)
    (h : evalScript crypto stack (payToScriptHash hash) flags checker sigversion = .ok stack') :
    ∃ top rest, stack = top :: rest ∧
      stack' = vchOfBool (HashOp.eval crypto .hash160 top = hash) :: rest := by
  obtain ⟨_, -, h⟩ := bind_eq_ok.mp h
  obtain ⟨s, hrun, h⟩ := bind_eq_ok.mp h
  obtain ⟨_, -, h⟩ := bind_eq_ok.mp h
  cases h
  rw [scriptOps_payToScriptHash hlen] at hrun
  obtain ⟨s₁, hhash, hrun⟩ := foldlM_cons_eq_ok.mp hrun
  obtain ⟨s₂, hpush, hrun⟩ := foldlM_cons_eq_ok.mp hrun
  obtain ⟨s₃, hequal, hrun⟩ := foldlM_cons_eq_ok.mp hrun
  cases foldlM_nil_eq_ok.mp hrun
  obtain ⟨top, rest, hstack, hstack₁, hexec₁⟩ := evalStep_hash160 rfl hhash
  obtain ⟨n, hs₂⟩ := evalStep_ok hexec₁ hpush
  rw [if_pos (by decide)] at hs₂
  have hstack₂ : s₂.stack = hash :: HashOp.eval crypto .hash160 top :: rest := by
    rw [hs₂, ← hstack₁]
  exact ⟨top, rest, hstack, evalStep_equal (by rw [hs₂]; exact hexec₁) hstack₂ hequal⟩

theorem requireTrue_eq_ok {stack : List Bytes} :
    requireTrue stack = .ok () ↔ ∃ top rest, stack = top :: rest ∧ castToBool top = true := by
  cases stack with
  | nil => simp [requireTrue]
  | cons top rest => simp [requireTrue]

theorem castToBool_vchOfBool (b : Bool) : castToBool (vchOfBool b) = b := by
  cases b
  · rfl
  · rfl

end Steps

section Verify

variable {crypto : Crypto} {checker : SignatureChecker} {scriptSig scriptPubKey : CScript}
  {witness : CScriptWitness}

/-- With no flags set, `VerifyScript` is the two evaluations and the test of the top. -/
theorem verifyScript_none (scriptSig scriptPubKey : CScript) (witness : CScriptWitness) :
    verifyScript crypto scriptVerifyNone checker scriptSig scriptPubKey witness =
      Except.mapError VerifyFailure.script (do
        let stackCopy ← evalScript crypto [] scriptSig scriptVerifyNone checker .base
        let stack ← evalScript crypto stackCopy scriptPubKey scriptVerifyNone checker .base
        requireTrue stack) := by
  have hsigPushOnly : hasFlag scriptVerifyNone scriptVerifySigPushOnly = false := by decide
  have hwitness : hasFlag scriptVerifyNone scriptVerifyWitness = false := by decide
  have hp2sh : hasFlag scriptVerifyNone scriptVerifyP2SH = false := by decide
  have hclean : hasFlag scriptVerifyNone scriptVerifyCleanStack = false := by decide
  rw [verifyScript, rejectIf_of_not (by simp [hsigPushOnly]), ok_bind]
  cases evalScript crypto [] scriptSig scriptVerifyNone checker .base with
  | error serror => rfl
  | ok stackCopy =>
    cases hstack : evalScript crypto stackCopy scriptPubKey scriptVerifyNone checker .base with
    | error serror => simp [Except.mapError, hstack]
    | ok stack =>
      cases htrue : requireTrue stack with
      | error serror => simp [Except.mapError, hstack, htrue]
      | ok _ =>
        simp [Except.mapError, hstack, htrue, witnessStage, extraStage, checkCleanStack,
          checkUnexpectedWitness, checkWhen, hwitness, hp2sh, hclean, pure, Except.pure]

theorem verifyScript_none_eq_ok :
    verifyScript crypto scriptVerifyNone checker scriptSig scriptPubKey witness = .ok () ↔
      ∃ stackCopy stack,
        evalScript crypto [] scriptSig scriptVerifyNone checker .base = .ok stackCopy ∧
        evalScript crypto stackCopy scriptPubKey scriptVerifyNone checker .base = .ok stack ∧
        requireTrue stack = .ok () := by
  rw [verifyScript_none, mapError_eq_ok]
  constructor
  · intro h
    obtain ⟨stackCopy, hsig, h⟩ := bind_eq_ok.mp h
    obtain ⟨stack, hpubKey, htrue⟩ := bind_eq_ok.mp h
    exact ⟨stackCopy, stack, hsig, hpubKey, htrue⟩
  · rintro ⟨stackCopy, stack, hsig, hpubKey, htrue⟩
    exact bind_eq_ok.mpr ⟨stackCopy, hsig, bind_eq_ok.mpr ⟨stack, hpubKey, htrue⟩⟩

/-- The scriptSig is literals only, and the last of them succeeds as a script run on the
others. -/
def PushedScriptSucceeds (crypto : Crypto) (checker : SignatureChecker) (scriptSig : CScript) :
    Prop :=
  isPushOnly scriptSig = true ∧
    ∃ redeemScript stack stack',
      evalScript crypto [] scriptSig scriptVerifyNone checker .base =
        .ok (redeemScript :: stack) ∧
      evalScript crypto stack redeemScript scriptVerifyNone checker .base = .ok stack' ∧
      requireTrue stack' = .ok ()

/-- The scriptSig pushes a redeem script with the hash the output names, and satisfies it. -/
def RedeemsScriptHash (crypto : Crypto) (checker : SignatureChecker)
    (scriptSig scriptPubKey : CScript) : Prop :=
  isPushOnly scriptSig = true ∧
    ∃ redeemScript stack stack',
      evalScript crypto [] scriptSig scriptVerifyNone checker .base =
        .ok (redeemScript :: stack) ∧
      scriptPubKey = payToScriptHash (HashOp.eval crypto .hash160 redeemScript) ∧
      evalScript crypto stack redeemScript scriptVerifyNone checker .base = .ok stack' ∧
      requireTrue stack' = .ok ()

theorem evalScript_mandatory {stack : List Bytes} {script : CScript} {sigversion : SigVersion} :
    evalScript crypto stack script mandatoryScriptVerifyFlags checker sigversion =
      evalScript crypto stack script scriptVerifyNone checker sigversion := by
  rw [evalScript, evalFlags_mandatory, evalScript]

theorem witnessStage_mandatory (script : CScript) (wellFormed : Bool) (malleated : ScriptError) :
    witnessStage crypto mandatoryScriptVerifyFlags checker script witness wellFormed malleated =
      .ok false := by
  have hwitness : hasFlag mandatoryScriptVerifyFlags scriptVerifyWitness = false := by decide
  simp [witnessStage, hwitness, pure, Except.pure]

/-- The pay-to-script-hash stage under the mandatory flags, on the stack the scriptSig left. -/
theorem scriptHashStage_mandatory_isOk_iff {stackCopy : List Bytes}
    (hsig : evalScript crypto [] scriptSig scriptVerifyNone checker .base = .ok stackCopy) :
    (∃ r, scriptHashStage crypto mandatoryScriptVerifyFlags checker scriptSig witness stackCopy =
        .ok r) ↔ PushedScriptSucceeds crypto checker scriptSig := by
  constructor
  · rintro ⟨r, h⟩
    obtain ⟨_, hpush, h⟩ := bind_eq_ok.mp h
    rw [rejectIf_eq_ok, not_not] at hpush
    cases stackCopy with
    | nil => cases h
    | cons redeemScript stack =>
      obtain ⟨stack', heval, h⟩ := bind_eq_ok.mp h
      obtain ⟨_, htrue, h⟩ := bind_eq_ok.mp h
      rw [mapError_eq_ok, evalScript_mandatory] at heval
      exact ⟨hpush, redeemScript, stack, stack', hsig, heval, mapError_eq_ok.mp htrue⟩
  · rintro ⟨hpush, redeemScript, stack, stack', hsig', heval, htrue⟩
    cases hsig.symm.trans hsig'
    refine ⟨(stack', false), ?_⟩
    rw [scriptHashStage, rejectIf_of_not (by simp [hpush])]
    simp [evalScript_mandatory, heval, htrue, witnessStage_mandatory, Except.mapError, pure,
      Except.pure]

theorem extraStage_mandatory_isOk_iff {stackCopy : List Bytes} (witness : CScriptWitness)
    (stack : List Bytes)
    (hsig : evalScript crypto [] scriptSig scriptVerifyNone checker .base = .ok stackCopy) :
    (∃ r, extraStage crypto mandatoryScriptVerifyFlags checker scriptSig scriptPubKey witness
        stackCopy stack = .ok r) ↔
      (isPayToScriptHash scriptPubKey = true →
        PushedScriptSucceeds crypto checker scriptSig) := by
  have hflag : hasFlag mandatoryScriptVerifyFlags scriptVerifyP2SH = true := by decide
  by_cases hp2sh : isPayToScriptHash scriptPubKey = true
  · simp only [extraStage, hflag, hp2sh, and_self, if_true, forall_const]
    exact scriptHashStage_mandatory_isOk_iff hsig
  · simp [extraStage, hp2sh]

/-- The mandatory flags add the redeem script, and nothing else. -/
theorem verifyScript_mandatory_iff :
    verifyScript crypto mandatoryScriptVerifyFlags checker scriptSig scriptPubKey witness =
        .ok () ↔
      verifyScript crypto scriptVerifyNone checker scriptSig scriptPubKey witness = .ok () ∧
        (isPayToScriptHash scriptPubKey = true →
          PushedScriptSucceeds crypto checker scriptSig) := by
  have hsigPushOnly : hasFlag mandatoryScriptVerifyFlags scriptVerifySigPushOnly = false := by
    decide
  have hwitness : hasFlag mandatoryScriptVerifyFlags scriptVerifyWitness = false := by decide
  have hclean : hasFlag mandatoryScriptVerifyFlags scriptVerifyCleanStack = false := by decide
  rw [verifyScript_none_eq_ok, verifyScript, rejectIf_of_not (by simp [hsigPushOnly]), ok_bind]
  simp only [evalScript_mandatory, witnessStage_mandatory]
  constructor
  · intro h
    obtain ⟨stackCopy, hsig, h⟩ := bind_eq_ok.mp h
    obtain ⟨stack, hpubKey, h⟩ := bind_eq_ok.mp h
    obtain ⟨_, htrue, h⟩ := bind_eq_ok.mp h
    obtain ⟨_, -, h⟩ := bind_eq_ok.mp h
    obtain ⟨r, hextra, -⟩ := bind_eq_ok.mp h
    have hsig := mapError_eq_ok.mp hsig
    exact ⟨⟨stackCopy, stack, hsig, mapError_eq_ok.mp hpubKey, mapError_eq_ok.mp htrue⟩,
      (extraStage_mandatory_isOk_iff witness _ hsig).mp ⟨r, hextra⟩⟩
  · rintro ⟨⟨stackCopy, stack, hsig, hpubKey, htrue⟩, hp2sh⟩
    obtain ⟨r, hextra⟩ := (extraStage_mandatory_isOk_iff witness stack hsig).mpr hp2sh
    simp [hsig, hpubKey, htrue, hextra, Except.mapError, checkCleanStack,
      checkUnexpectedWitness, checkWhen, hclean, hwitness]

/-- The bare evaluation compares the hash, so what is pushed is a script with that hash. -/
theorem redeemsScriptHash_of_verifyScript
    (hverify : verifyScript crypto scriptVerifyNone checker scriptSig scriptPubKey witness =
      .ok ()) (hp2sh : isPayToScriptHash scriptPubKey = true)
    (hpushed : PushedScriptSucceeds crypto checker scriptSig) :
    RedeemsScriptHash crypto checker scriptSig scriptPubKey := by
  obtain ⟨hpush, redeemScript, stack, stack', hsig, heval, htrue⟩ := hpushed
  obtain ⟨stackCopy, result, hsig', hpubKey, hresult⟩ := verifyScript_none_eq_ok.mp hverify
  cases hsig.symm.trans hsig'
  obtain ⟨hash, hlen, rfl⟩ := isPayToScriptHash_iff.mp hp2sh
  obtain ⟨top, rest, hstack, rfl⟩ := evalScript_payToScriptHash hlen hpubKey
  cases hstack
  obtain ⟨top, rest, hstack, hcast⟩ := requireTrue_eq_ok.mp hresult
  cases hstack
  rw [castToBool_vchOfBool, decide_eq_true_eq] at hcast
  exact ⟨hpush, redeemScript, stack, stack', hsig, by rw [hcast], heval, htrue⟩

end Verify

section Assertions

/-- The assertions of `VerifyScript` on its flags. -/
def FlagsAllowed (flags : UInt32) : Prop :=
  (hasFlag flags scriptVerifyCleanStack = true →
    hasFlag flags scriptVerifyP2SH = true ∧ hasFlag flags scriptVerifyWitness = true) ∧
  (hasFlag flags scriptVerifyWitness = true → hasFlag flags scriptVerifyP2SH = true)

instance instDecidableFlagsAllowed (flags : UInt32) : Decidable (FlagsAllowed flags) :=
  inferInstanceAs (Decidable (_ ∧ _))

/-- The failure is an answer of `VerifyScript`. -/
def VerifyFailure.IsAnswer : VerifyFailure → Prop
  | script _ => True
  | assertion _ => False

variable {crypto : Crypto} {flags : UInt32} {checker : SignatureChecker}
  {scriptSig scriptPubKey : CScript} {witness : CScriptWitness}

theorem ends_mapError_script {α : Type} {x : Except ScriptError α} :
    Ends VerifyFailure.IsAnswer (x.mapError .script) fun a => x = .ok a := by
  cases x with
  | error serror => exact trivial
  | ok a => exact rfl

/-- A script hash has been compared with that of an element, so there was one. -/
theorem extraStage_ends {stackCopy stack : List Bytes}
    (hpubKey : evalScript crypto stackCopy scriptPubKey flags checker .base = .ok stack)
    (stack' : List Bytes) :
    Ends VerifyFailure.IsAnswer
      (extraStage crypto flags checker scriptSig scriptPubKey witness stackCopy stack')
      fun _ => True := by
  unfold extraStage
  split
  next hp2sh =>
    obtain ⟨hash, hlen, rfl⟩ := isPayToScriptHash_iff.mp hp2sh.2
    obtain ⟨top, rest, rfl, -⟩ := evalScript_payToScriptHash hlen hpubKey
    refine (Ends.rejectIf fun _ => trivial).bind fun _ _ => ?_
    refine ends_mapError_script.bind fun _ _ => ?_
    refine ends_mapError_script.bind fun _ _ => ?_
    exact ends_mapError_script.bind fun _ _ => trivial
  next => exact trivial

theorem checkCleanStack_ends (h : FlagsAllowed flags) (stack : List Bytes) :
    Ends VerifyFailure.IsAnswer (checkCleanStack flags stack) fun _ => True := by
  unfold checkCleanStack checkWhen
  split
  next hclean =>
    obtain ⟨hp2sh, hwitness⟩ := h.1 hclean
    refine (Ends.rejectIf fun hnot => absurd hp2sh hnot).bind fun _ _ => ?_
    refine (Ends.rejectIf fun hnot => absurd hwitness hnot).bind fun _ _ => ?_
    exact (Ends.rejectIf fun _ => trivial).mono fun _ _ => trivial
  next => exact trivial

theorem checkUnexpectedWitness_ends (h : FlagsAllowed flags) (hadWitness : Bool)
    (witness : CScriptWitness) :
    Ends VerifyFailure.IsAnswer (checkUnexpectedWitness flags hadWitness witness)
      fun _ => True := by
  unfold checkUnexpectedWitness checkWhen
  split
  next hwitness =>
    refine (Ends.rejectIf fun hnot => absurd (h.2 hwitness) hnot).bind fun _ _ => ?_
    exact (Ends.rejectIf fun _ => trivial).mono fun _ _ => trivial
  next => exact trivial

/-- With flags that its assertions allow, `VerifyScript` fails none of them. -/
theorem verifyScript_ends (crypto : Crypto) (checker : SignatureChecker) (h : FlagsAllowed flags)
    (scriptSig scriptPubKey : CScript) (witness : CScriptWitness) :
    Ends VerifyFailure.IsAnswer
      (verifyScript crypto flags checker scriptSig scriptPubKey witness) fun _ => True := by
  refine (Ends.rejectIf fun _ => trivial).bind fun _ _ => ?_
  refine ends_mapError_script.bind fun _ _ => ?_
  refine ends_mapError_script.bind fun stack hpubKey => ?_
  refine ends_mapError_script.bind fun _ _ => ?_
  refine ends_mapError_script.bind fun bareWitness _ => ?_
  refine (extraStage_ends hpubKey _).bind fun _ _ => ?_
  exact (checkCleanStack_ends h _).bind fun _ _ => checkUnexpectedWitness_ends h _ _

end Assertions

end Verium
