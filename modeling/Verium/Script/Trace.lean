import Verium.Script.Interpreter

/-!
What a script executes. `VerifyScript` evaluates up to four scripts: the scriptSig, the
scriptPubKey, a redeem script and a witness script. If it succeeds, each of them has been run to its
end, and every lock-time operation reached on the way has passed its check.
-/

namespace Verium

open Lib

namespace Opcode

def opCheckLockTimeVerify : UInt8 := 0xb1
def opCheckSequenceVerify : UInt8 := 0xb2

end Opcode

/-- A turn that is not skipped pushes its literal or executes its operation. -/
theorem evalStep_ok {crypto : Crypto} {flags : EvalFlags} {checker : SignatureChecker}
    {sigversion : SigVersion} {s t : EvalState} {opcode : UInt8} {vch : Bytes} {pc : CScript}
    (hexec : s.vfExec.all id = true)
    (h : evalStep crypto flags checker sigversion s (.op opcode vch pc) = .ok t) :
    ∃ nOpCount, if opcode ≤ Opcode.pushData4 then t = { s with nOpCount, stack := vch :: s.stack }
      else execOp crypto flags checker sigversion true pc (Op.ofOpcode opcode)
        { s with nOpCount } = .ok t := by
  simp only [evalStep, hexec, true_and, true_or, if_true, bind_eq_ok] at h
  obtain ⟨-, -, -, -, -, -, -, -, h⟩ := h
  refine ⟨if Opcode.op16 < opcode then s.nOpCount + 1 else s.nOpCount, ?_⟩
  split at h
  next hpush =>
    simp only [bind_eq_ok] at h
    obtain ⟨-, -, pushed, hpushed, -, -, h⟩ := h
    cases hpushed
    cases h
    rw [if_pos hpush]
  next hpush =>
    simp only [bind_eq_ok] at h
    obtain ⟨t', hop, -, -, h⟩ := h
    cases h
    rw [if_neg hpush]
    exact hop

section Executes

variable (crypto : Crypto) (flags : UInt32) (checker : SignatureChecker) (sigversion : SigVersion)

/-- `EvalScript` gets to an operation that is not in a skipped branch, with `vch` on top of the
stack. -/
def Executes (stack : List Bytes) (script : CScript) (opcode : UInt8) (vch : Bytes) : Prop :=
  ∃ pre vchPushValue pc post s, scriptOps script = pre ++ .op opcode vchPushValue pc :: post ∧
    pre.foldlM (evalStep crypto (evalFlags flags) checker sigversion)
      { stack, altstack := [], vfExec := [], pbegincodehash := script, nOpCount := 0 } = .ok s ∧
    s.vfExec.all id = true ∧ s.stack.head? = some vch

variable {crypto flags checker sigversion} {stack result : List Bytes} {script : CScript}
  {opcode : UInt8} {vch : Bytes}

theorem Executes.execOp (h : Executes crypto flags checker sigversion stack script opcode vch)
    (hpush : ¬ opcode ≤ Opcode.pushData4)
    (heval : evalScript crypto stack script flags checker sigversion = .ok result) :
    ∃ pc s t, s.stack.head? = some vch ∧ Verium.execOp crypto (evalFlags flags) checker sigversion
      true pc (Op.ofOpcode opcode) s = .ok t := by
  obtain ⟨pre, vchPushValue, pc, post, s, hops, hpre, hexec, htop⟩ := h
  obtain ⟨⟨⟩, -, heval⟩ := bind_eq_ok.mp heval
  obtain ⟨last, hloop, -⟩ := bind_eq_ok.mp heval
  rw [hops, foldlM_append_eq_ok] at hloop
  obtain ⟨s', hpre', hloop⟩ := hloop
  obtain rfl : s = s' := Except.ok.inj (hpre.symm.trans hpre')
  obtain ⟨t, hstep, -⟩ := foldlM_cons_eq_ok.mp hloop
  obtain ⟨n, hop⟩ := evalStep_ok hexec hstep
  rw [if_neg hpush] at hop
  refine ⟨pc, _, t, ?_, hop⟩
  exact htop

theorem lockTimeOperand_ok {flags : EvalFlags} {n : Int} (h : lockTimeOperand flags vch = .ok n) :
    n = scriptNumSetVch vch ∧ 0 ≤ n := by
  obtain ⟨n', hnum, h⟩ := bind_eq_ok.mp h
  obtain ⟨⟨⟩, hneg, h⟩ := bind_eq_ok.mp h
  cases h
  obtain ⟨⟨⟩, -, hnum⟩ := bind_eq_ok.mp hnum
  obtain ⟨⟨⟩, -, hnum⟩ := bind_eq_ok.mp hnum
  cases hnum
  exact ⟨rfl, not_lt.mp (rejectIf_eq_ok.mp hneg)⟩

theorem Executes.checkLockTime
    (h : Executes crypto flags checker sigversion stack script Opcode.opCheckLockTimeVerify vch)
    (hflag : hasFlag flags scriptVerifyCheckLockTimeVerify = true)
    (heval : evalScript crypto stack script flags checker sigversion = .ok result) :
    0 ≤ scriptNumSetVch vch ∧ checker.checkLockTime (scriptNumSetVch vch) = true := by
  obtain ⟨pc, ⟨stack, _, _, _, _⟩, t, htop, hop⟩ := h.execOp (by decide) heval
  cases stack with
  | nil => cases htop
  | cons top rest =>
    cases htop
    change (if ¬ hasFlag flags scriptVerifyCheckLockTimeVerify then _ else _) = _ at hop
    rw [if_neg (not_not.mpr hflag)] at hop
    obtain ⟨nLockTime, hnum, hop⟩ := bind_eq_ok.mp hop
    obtain ⟨⟨⟩, hcheck, -⟩ := bind_eq_ok.mp hop
    obtain ⟨rfl, hneg⟩ := lockTimeOperand_ok hnum
    exact ⟨hneg, not_not.mp (rejectIf_eq_ok.mp hcheck)⟩

theorem Executes.checkSequence
    (h : Executes crypto flags checker sigversion stack script Opcode.opCheckSequenceVerify vch)
    (hflag : hasFlag flags scriptVerifyCheckSequenceVerify = true)
    (hdisable : (scriptNumSetVch vch).toNat.testBit 31 = false)
    (heval : evalScript crypto stack script flags checker sigversion = .ok result) :
    checker.checkSequence (scriptNumSetVch vch) = true := by
  obtain ⟨pc, ⟨stack, _, _, _, _⟩, t, htop, hop⟩ := h.execOp (by decide) heval
  cases stack with
  | nil => cases htop
  | cons top rest =>
    cases htop
    change (if ¬ hasFlag flags scriptVerifyCheckSequenceVerify then _ else _) = _ at hop
    rw [if_neg (not_not.mpr hflag)] at hop
    obtain ⟨nSequence, hnum, hop⟩ := bind_eq_ok.mp hop
    obtain ⟨rfl, -⟩ := lockTimeOperand_ok hnum
    rw [if_neg (by rw [hdisable]; exact Bool.false_ne_true)] at hop
    obtain ⟨⟨⟩, hcheck, -⟩ := bind_eq_ok.mp hop
    exact not_not.mp (rejectIf_eq_ok.mp hcheck)

end Executes

section Runs

variable (crypto : Crypto) (flags : UInt32) (checker : SignatureChecker)

/-- The scripts that `VerifyScript` evaluates, each with the stack it starts on. -/
inductive RunsScript (scriptSig scriptPubKey : CScript) (witness : CScriptWitness) :
    List Bytes → CScript → SigVersion → Prop where
  | scriptSig : RunsScript scriptSig scriptPubKey witness [] scriptSig .base
  | scriptPubKey {stackCopy : List Bytes} :
      evalScript crypto [] scriptSig flags checker .base = .ok stackCopy →
      RunsScript scriptSig scriptPubKey witness stackCopy scriptPubKey .base
  | redeemScript {pubKeySerialized : Bytes} {stack : List Bytes} :
      hasFlag flags scriptVerifyP2SH = true → isPayToScriptHash scriptPubKey = true →
      evalScript crypto [] scriptSig flags checker .base = .ok (pubKeySerialized :: stack) →
      RunsScript scriptSig scriptPubKey witness stack pubKeySerialized .base
  | witnessScript {program : Bytes} {script : CScript} {stack : List Bytes} :
      hasFlag flags scriptVerifyWitness = true → isWitnessProgram scriptPubKey = some (0, program) →
      witnessV0Script crypto witness program = .ok (script, stack) →
      RunsScript scriptSig scriptPubKey witness stack script .witnessV0
  | redeemWitnessScript {pubKeySerialized program : Bytes} {script : CScript}
      {stack stack' : List Bytes} :
      hasFlag flags scriptVerifyP2SH = true → isPayToScriptHash scriptPubKey = true →
      evalScript crypto [] scriptSig flags checker .base = .ok (pubKeySerialized :: stack) →
      hasFlag flags scriptVerifyWitness = true →
      isWitnessProgram pubKeySerialized = some (0, program) →
      witnessV0Script crypto witness program = .ok (script, stack') →
      RunsScript scriptSig scriptPubKey witness stack' script .witnessV0

variable {crypto flags checker} {scriptSig scriptPubKey : CScript} {witness : CScriptWitness}
  {stack : List Bytes} {script : CScript} {sigversion : SigVersion}

theorem witnessStage_run {program : Bytes} {wellFormed had : Bool} {malleated : ScriptError}
    {scriptCode : CScript} (hflag : hasFlag flags scriptVerifyWitness = true)
    (hprogram : isWitnessProgram scriptCode = some (0, program))
    (hscript : witnessV0Script crypto witness program = .ok (script, stack))
    (h : witnessStage crypto flags checker scriptCode witness wellFormed malleated = .ok had) :
    ∃ result, evalScript crypto stack script flags checker .witnessV0 = .ok result := by
  rw [witnessStage, if_neg (not_not.mpr hflag), hprogram] at h
  obtain ⟨⟨⟩, -, h⟩ := bind_eq_ok.mp h
  obtain ⟨⟨⟩, h, -⟩ := bind_eq_ok.mp h
  rw [verifyWitnessProgram, if_pos rfl, hscript, ok_bind] at h
  obtain ⟨⟨⟩, -, h⟩ := bind_eq_ok.mp h
  obtain ⟨result, heval, -⟩ := bind_eq_ok.mp h
  exact ⟨result, heval⟩

/-- If `VerifyScript` succeeds, so did every script it evaluated. -/
theorem RunsScript.evalScript_ok
    (hrun : RunsScript crypto flags checker scriptSig scriptPubKey witness stack script sigversion)
    (h : verifyScript crypto flags checker scriptSig scriptPubKey witness = .ok ()) :
    ∃ result, evalScript crypto stack script flags checker sigversion = .ok result := by
  obtain ⟨⟨⟩, -, h⟩ := bind_eq_ok.mp h
  obtain ⟨stackCopy, hsig, h⟩ := bind_eq_ok.mp h
  obtain ⟨stack', hpubKey, h⟩ := bind_eq_ok.mp h
  obtain ⟨⟨⟩, -, h⟩ := bind_eq_ok.mp h
  obtain ⟨bare, hbare, h⟩ := bind_eq_ok.mp h
  obtain ⟨extra, hextra, -⟩ := bind_eq_ok.mp h
  rw [mapError_eq_ok] at hsig hpubKey hbare
  -- the stack that the scriptSig leaves
  have hsame : ∀ {copy}, evalScript crypto [] scriptSig flags checker .base = .ok copy →
      copy = stackCopy := fun hcopy => Except.ok.inj (hcopy.symm.trans hsig)
  cases hrun with
  | scriptSig => exact ⟨stackCopy, hsig⟩
  | scriptPubKey hcopy =>
    rw [hsame hcopy]
    exact ⟨stack', hpubKey⟩
  | redeemScript hp2sh hscript hcopy =>
    rw [extraStage, if_pos ⟨hp2sh, hscript⟩, ← hsame hcopy] at hextra
    obtain ⟨⟨⟩, -, hextra⟩ := bind_eq_ok.mp hextra
    obtain ⟨result, heval, -⟩ := bind_eq_ok.mp hextra
    exact ⟨result, mapError_eq_ok.mp heval⟩
  | witnessScript hflag hprogram hscript => exact witnessStage_run hflag hprogram hscript hbare
  | redeemWitnessScript hp2sh hscript hcopy hflag hprogram hv0 =>
    rw [extraStage, if_pos ⟨hp2sh, hscript⟩, ← hsame hcopy] at hextra
    obtain ⟨⟨⟩, -, hextra⟩ := bind_eq_ok.mp hextra
    obtain ⟨result, -, hextra⟩ := bind_eq_ok.mp hextra
    obtain ⟨⟨⟩, -, hextra⟩ := bind_eq_ok.mp hextra
    obtain ⟨had, hstage, -⟩ := bind_eq_ok.mp hextra
    exact witnessStage_run hflag hprogram hv0 (mapError_eq_ok.mp hstage)

end Runs

end Verium
