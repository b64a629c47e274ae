import Verium.Lib.Memory
import Verium.Lib.Traced
import Verium.Lib.Wrap
import Verium.Script.Interpreter

/-!
`EvalScript` and `VerifyScript` statement by statement. The stacks are vectors in storage order and
every access to them can throw; the operators of `CScriptNum` check their assertions; the loops run
for a number of turns that has to be enough; and a run records the operations it executes, the
calls it makes to the signature checker and the stacks after each turn.
-/

namespace Verium.Machine

open Lib Lib.Traced

/-- Why a run stops before its end. Only the first is an answer of `EvalScript`; the others are
an exception, undefined behaviour, an abort, or a loop that needs more turns than it was given. -/
inductive Stop where
  | script (serror : ScriptError)
  /-- `std::out_of_range` thrown by `stacktop` or `altstacktop`. -/
  | outOfRange
  | stackEmpty
  /-- `erase` or `insert` at a position outside the vector. -/
  | iterator
  | assertion (condition : String)
  | signedOverflow
  | turns
deriving DecidableEq, Repr

inductive Event where
  | operation (opcode : UInt8)
  | multisigKeys (nKeysCount : Nat)
  | checkSig (vchSig vchPubKey : Bytes) (scriptCode : CScript)
  | turn (stack altstack : List Bytes)
deriving DecidableEq, Repr

abbrev Step := Except Stop

def setError {α : Type} (serror : ScriptError) : Step α :=
  .error (.script serror)

/-- `if (c) return set_error(serror, ..)`. -/
def setErrorIf (c : Prop) [Decidable c] (serror : ScriptError) : Step Unit :=
  rejectIf c (.script serror)

/-- A function of the source that touches neither the stacks nor the checker. -/
def call {α : Type} (x : Except ScriptError α) : Step α :=
  x.mapError .script

/-- An access that stops the run where there is nothing. -/
def orStop {α : Type} (stop : Stop) : Option α → Step α
  | none => .error stop
  | some a => .ok a

/-- `stacktop(i)`, that is `stack.at(stack.size()+(i))`. -/
def stacktop (stack : List Bytes) (i : Int) : Step Bytes :=
  orStop .outOfRange (atFromEnd? stack (-i))

def setStacktop (stack : List Bytes) (i : Int) (vch : Bytes) : Step (List Bytes) :=
  orStop .outOfRange (setFromEnd? stack (-i) vch)

def popstack (stack : List Bytes) : Step (List Bytes) :=
  orStop .stackEmpty (popBack? stack)

def swapStacktop (stack : List Bytes) (i j : Int) : Step (List Bytes) := do
  let vchI ← stacktop stack i
  let vchJ ← stacktop stack j
  let stack ← setStacktop stack i vchJ
  setStacktop stack j vchI

/-- `if (stack.size() < n) return set_error(serror, SCRIPT_ERR_INVALID_STACK_OPERATION)`. -/
def needs (stack : List Bytes) (n : Nat) : Step Unit :=
  setErrorIf (stack.length < n) .invalidStackOperation

namespace CScriptNum

def int64Min : Int := -2 ^ 63
def int64Max : Int := 2 ^ 63 - 1

/-- The constructor from a vector. -/
def ofVch (vch : Bytes) (fRequireMinimal : Bool) (nMaxNumSize : Nat) : Step Int :=
  call (scriptNum vch fRequireMinimal nMaxNumSize)

def addAssign (m_value rhs : Int) : Step Int := do
  rejectIf (¬ (rhs = 0 ∨ (0 < rhs ∧ m_value ≤ int64Max - rhs) ∨
    (rhs < 0 ∧ int64Min - rhs ≤ m_value))) (.assertion "operator+=")
  return m_value + rhs

def subAssign (m_value rhs : Int) : Step Int := do
  rejectIf (¬ (rhs = 0 ∨ (0 < rhs ∧ int64Min + rhs ≤ m_value) ∨
    (rhs < 0 ∧ m_value ≤ int64Max + rhs))) (.assertion "operator-=")
  return m_value - rhs

def neg (m_value : Int) : Step Int := do
  rejectIf (m_value = int64Min) (.assertion "m_value != std::numeric_limits<int64_t>::min()")
  return -m_value

/-- `operator+`, which has no assertion. -/
def add (m_value rhs : Int) : Step Int := do
  rejectIf (¬ Fits (m_value + rhs)) .signedOverflow
  return m_value + rhs

/-- The binary `operator-`, which has no assertion. -/
def sub (m_value rhs : Int) : Step Int := do
  rejectIf (¬ Fits (m_value - rhs)) .signedOverflow
  return m_value - rhs

/-- `getvch`; `serialize` negates a negative value. -/
def getvch (m_value : Int) : Step Bytes := do
  rejectIf (m_value = int64Min) .signedOverflow
  return scriptNumSerialize m_value

end CScriptNum

def evalUnary (op : UnaryOp) (bn : Int) : Step Int :=
  match op with
  | .add1 => CScriptNum.addAssign bn 1
  | .sub1 => CScriptNum.subAssign bn 1
  | .negate => CScriptNum.neg bn
  | .abs => if bn < 0 then CScriptNum.neg bn else pure bn
  | op => pure (op.eval bn)

def evalBinary (op : BinaryOp) (bn1 bn2 : Int) : Step Int :=
  match op with
  | .add => CScriptNum.add bn1 bn2
  | .sub => CScriptNum.sub bn1 bn2
  | op => pure (op.eval bn1 bn2)

/-- The variables of `EvalScript` that live across operations, the stacks in storage order. -/
structure EvalVars where
  stack : List Bytes
  altstack : List Bytes
  /-- The open conditionals, innermost first. -/
  vfExec : List Bool
  pbegincodehash : CScript
  nOpCount : Int
deriving DecidableEq, Repr

section Exec

variable (crypto : Crypto) (flags : EvalFlags) (checker : SignatureChecker)
  (sigversion : SigVersion)

/-- The stack operations of the switch, from `OP_2DROP` to `OP_SIZE`, without `OP_PICK` and
`OP_ROLL`. -/
def stackOp (op : Op) (stack : List Bytes) : Step (List Bytes) :=
  match op with
  | .drop2 => do
      needs stack 2
      let stack ← popstack stack
      popstack stack
  | .dup2 => do
      needs stack 2
      let vch1 ← stacktop stack (-2)
      let vch2 ← stacktop stack (-1)
      return pushBack (pushBack stack vch1) vch2
  | .dup3 => do
      needs stack 3
      let vch1 ← stacktop stack (-3)
      let vch2 ← stacktop stack (-2)
      let vch3 ← stacktop stack (-1)
      return pushBack (pushBack (pushBack stack vch1) vch2) vch3
  | .over2 => do
      needs stack 4
      let vch1 ← stacktop stack (-4)
      let vch2 ← stacktop stack (-3)
      return pushBack (pushBack stack vch1) vch2
  | .rot2 => do
      needs stack 6
      let vch1 ← stacktop stack (-6)
      let vch2 ← stacktop stack (-5)
      let stack ← orStop .iterator (eraseRangeFromEnd? stack 6 4)
      return pushBack (pushBack stack vch1) vch2
  | .swap2 => do
      needs stack 4
      let stack ← swapStacktop stack (-4) (-2)
      swapStacktop stack (-3) (-1)
  | .ifDup => do
      needs stack 1
      let vch ← stacktop stack (-1)
      return if castToBool vch then pushBack stack vch else stack
  | .depth => do
      let vch ← CScriptNum.getvch stack.length
      return pushBack stack vch
  | .drop => do
      needs stack 1
      popstack stack
  | .dup => do
      needs stack 1
      let vch ← stacktop stack (-1)
      return pushBack stack vch
  | .nip => do
      needs stack 2
      orStop .iterator (eraseFromEnd? stack 2)
  | .over => do
      needs stack 2
      let vch ← stacktop stack (-2)
      return pushBack stack vch
  | .rot => do
      needs stack 3
      let stack ← swapStacktop stack (-3) (-2)
      swapStacktop stack (-2) (-1)
  | .swap => do
      needs stack 2
      swapStacktop stack (-2) (-1)
  | .tuck => do
      needs stack 2
      let vch ← stacktop stack (-1)
      orStop .iterator (insertFromEnd? stack 2 vch)
  | .size => do
      needs stack 1
      let top ← stacktop stack (-1)
      let vch ← CScriptNum.getvch top.length
      return pushBack stack vch
  | _ => setError .badOpcode

def eraseRolled (roll : Bool) (stack : List Bytes) (n : Int) : Step (List Bytes) :=
  if roll then orStop .iterator (eraseFromEnd? stack (n + 1)) else pure stack

def execPickRoll (roll : Bool) (stack : List Bytes) : Step (List Bytes) := do
  needs stack 2
  let top ← stacktop stack (-1)
  let n := scriptNumGetInt (← CScriptNum.ofVch top flags.minimalData defaultMaxNumSize)
  let stack ← popstack stack
  setErrorIf (n < 0 ∨ (stack.length : Int) ≤ n) .invalidStackOperation
  let vch ← stacktop stack (-n - 1)
  let stack ← eraseRolled roll stack n
  return pushBack stack vch

/-- `stack.push_back(fSuccess ? vchTrue : vchFalse)` and the ending of the `OP_*VERIFY` forms. -/
def pushResult (verify : Bool) (serror : ScriptError) (fSuccess : Bool) (stack : List Bytes) :
    Step (List Bytes) :=
  let stack := pushBack stack (vchOfBool fSuccess)
  if verify then
    if fSuccess then popstack stack else setError serror
  else pure stack

def execEqual (verify : Bool) (stack : List Bytes) : Step (List Bytes) := do
  needs stack 2
  let vch1 ← stacktop stack (-2)
  let vch2 ← stacktop stack (-1)
  let stack ← popstack stack
  let stack ← popstack stack
  pushResult verify .equalVerify (vch1 = vch2) stack

def execUnary (op : UnaryOp) (stack : List Bytes) : Step (List Bytes) := do
  needs stack 1
  let top ← stacktop stack (-1)
  let bn ← CScriptNum.ofVch top flags.minimalData defaultMaxNumSize
  let bn ← evalUnary op bn
  let stack ← popstack stack
  let vch ← CScriptNum.getvch bn
  return pushBack stack vch

/-- `if (CastToBool(stacktop(-1))) popstack(stack); else return set_error(serror, ..)`. -/
def verifyTop (serror : ScriptError) (stack : List Bytes) : Step (List Bytes) := do
  let top ← stacktop stack (-1)
  if castToBool top then popstack stack else setError serror

def execBinary (op : BinaryOp) (stack : List Bytes) : Step (List Bytes) := do
  needs stack 2
  let vch1 ← stacktop stack (-2)
  let bn1 ← CScriptNum.ofVch vch1 flags.minimalData defaultMaxNumSize
  let vch2 ← stacktop stack (-1)
  let bn2 ← CScriptNum.ofVch vch2 flags.minimalData defaultMaxNumSize
  let bn ← evalBinary op bn1 bn2
  let stack ← popstack stack
  let stack ← popstack stack
  let vch ← CScriptNum.getvch bn
  let stack := pushBack stack vch
  if op = .numEqualVerify then verifyTop .numEqualVerify stack else pure stack

def execWithin (stack : List Bytes) : Step (List Bytes) := do
  needs stack 3
  let vch1 ← stacktop stack (-3)
  let bn1 ← CScriptNum.ofVch vch1 flags.minimalData defaultMaxNumSize
  let vch2 ← stacktop stack (-2)
  let bn2 ← CScriptNum.ofVch vch2 flags.minimalData defaultMaxNumSize
  let vch3 ← stacktop stack (-1)
  let bn3 ← CScriptNum.ofVch vch3 flags.minimalData defaultMaxNumSize
  let stack ← popstack stack
  let stack ← popstack stack
  let stack ← popstack stack
  return pushBack stack (vchOfBool (bn2 ≤ bn1 && bn1 < bn3))

def execHash (op : HashOp) (stack : List Bytes) : Step (List Bytes) := do
  needs stack 1
  let vch ← stacktop stack (-1)
  let stack ← popstack stack
  return pushBack stack (op.eval crypto vch)

def execVerify (stack : List Bytes) : Step (List Bytes) := do
  needs stack 1
  verifyTop .verify stack

def execCheckLockTimeVerify (stack : List Bytes) : Step Unit := do
  needs stack 1
  let top ← stacktop stack (-1)
  let nLockTime ← CScriptNum.ofVch top flags.minimalData 5
  setErrorIf (nLockTime < 0) .negativeLocktime
  setErrorIf (¬ checker.checkLockTime nLockTime) .unsatisfiedLocktime

def execCheckSequenceVerify (stack : List Bytes) : Step Unit := do
  needs stack 1
  let top ← stacktop stack (-1)
  let nSequence ← CScriptNum.ofVch top flags.minimalData 5
  setErrorIf (nSequence < 0) .negativeLocktime
  -- with the disable flag set the operation is a no-op
  setErrorIf (¬ nSequence.toNat.testBit 31 ∧ ¬ checker.checkSequence nSequence)
    .unsatisfiedLocktime

def execIf (negated : Bool) (v : EvalVars) : Step EvalVars := do
  setErrorIf (v.stack.length < 1) .unbalancedConditional
  let vch ← stacktop v.stack (-1)
  let fValue ← call (ifCondition flags sigversion negated vch)
  let stack ← popstack v.stack
  return { v with stack, vfExec := fValue :: v.vfExec }

abbrev Run := Traced Event Stop

def checkSig (vchSig vchPubKey : Bytes) (scriptCode : CScript) : Run Bool := do
  emit (.checkSig vchSig vchPubKey scriptCode)
  return checker.checkSig vchSig vchPubKey scriptCode sigversion

def execCheckSig (verify : Bool) (pbegincodehash : CScript) (stack : List Bytes) :
    Run (List Bytes) := do
  needs stack 2
  let vchSig ← stacktop stack (-2)
  let vchPubKey ← stacktop stack (-1)
  let scriptCode ← call (dropSignature flags sigversion pbegincodehash vchSig)
  call (checkSignatureEncoding crypto flags vchSig)
  call (checkPubKeyEncoding flags vchPubKey sigversion)
  let fSuccess ← checkSig checker sigversion vchSig vchPubKey scriptCode
  setErrorIf (¬ fSuccess ∧ flags.nullFail ∧ vchSig ≠ []) .sigNullFail
  let stack ← popstack stack
  let stack ← popstack stack
  pushResult verify .checkSigVerify fSuccess stack

/-- The loop of `OP_CHECKMULTISIG` that drops the signatures from the script code; `k` is the
number of signatures done. -/
def dropSignatures (stack : List Bytes) (isig : Int) : (remaining : Nat) → (k : Int) →
    (scriptCode : CScript) → Step CScript
  | 0, _, scriptCode => pure scriptCode
  | remaining + 1, k, scriptCode => do
      let vchSig ← stacktop stack (-isig - k)
      let scriptCode ← call (dropSignature flags sigversion scriptCode vchSig)
      dropSignatures stack isig remaining (k + 1) scriptCode

/-- The loop `while (fSuccess && nSigsCount > 0)` of `OP_CHECKMULTISIG`. -/
def matchSignatures (stack : List Bytes) (scriptCode : CScript) : (turns : Nat) →
    (fSuccess : Bool) → (isig ikey nSigsCount nKeysCount : Int) → Run Bool
  | 0, _, _, _, _, _ => fail .turns
  | turns + 1, fSuccess, isig, ikey, nSigsCount, nKeysCount =>
      if fSuccess ∧ 0 < nSigsCount then do
        let vchSig ← stacktop stack (-isig)
        let vchPubKey ← stacktop stack (-ikey)
        call (checkSignatureEncoding crypto flags vchSig)
        call (checkPubKeyEncoding flags vchPubKey sigversion)
        let fOk ← checkSig checker sigversion vchSig vchPubKey scriptCode
        let isig := if fOk then isig + 1 else isig
        let nSigsCount := if fOk then nSigsCount - 1 else nSigsCount
        let ikey := ikey + 1
        let nKeysCount := nKeysCount - 1
        -- more signatures left than keys: too many have failed
        let fSuccess := ¬ nKeysCount < nSigsCount
        matchSignatures stack scriptCode turns fSuccess isig ikey nSigsCount nKeysCount
      else pure fSuccess

/-- The loop `while (i-- > 1)` of `OP_CHECKMULTISIG` that pops the arguments. -/
def cleanUp (fSuccess : Bool) : (i : Nat) → (ikey2 : Int) → (stack : List Bytes) →
    Step (List Bytes)
  | 0, _, stack => pure stack
  | i + 1, ikey2, stack =>
      if 1 < i + 1 then do
        let top ← stacktop stack (-1)
        setErrorIf (¬ fSuccess ∧ flags.nullFail ∧ ikey2 = 0 ∧ top ≠ []) .sigNullFail
        let ikey2 := if 0 < ikey2 then ikey2 - 1 else ikey2
        let stack ← popstack stack
        cleanUp fSuccess i ikey2 stack
      else pure stack

/-- The part of `OP_CHECKMULTISIG` after its counts are read. `i` is the number of arguments and
one, `ikey` and `isig` are the depths of the first key and the first signature. -/
def checkArguments (verify : Bool) (pbegincodehash : CScript) (stack : List Bytes)
    (i ikey isig nKeysCount nSigsCount : Int) : Run (List Bytes) := do
  let ikey2 := nKeysCount + 2
  let scriptCode ← dropSignatures flags sigversion stack isig nSigsCount.toNat 0 pbegincodehash
  let fSuccess ← matchSignatures crypto flags checker sigversion stack scriptCode
    (nKeysCount.toNat + 1) true isig ikey nSigsCount nKeysCount
  let stack ← cleanUp flags fSuccess i.toNat ikey2 stack
  setErrorIf (stack.length < 1) .invalidStackOperation
  let dummy ← stacktop stack (-1)
  setErrorIf (flags.nullDummy ∧ dummy ≠ []) .sigNullDummy
  let stack ← popstack stack
  pushResult verify .checkMultiSigVerify fSuccess stack

def execCheckMultiSig (verify : Bool) (pbegincodehash : CScript) (nOpCount : Int)
    (stack : List Bytes) : Run (Int × List Bytes) := do
  let i : Int := 1
  setErrorIf ((stack.length : Int) < i) .invalidStackOperation
  let top ← stacktop stack (-i)
  let nKeysCount := scriptNumGetInt (← CScriptNum.ofVch top flags.minimalData defaultMaxNumSize)
  setErrorIf (nKeysCount < 0 ∨ (maxPubkeysPerMultisig : Int) < nKeysCount) .pubkeyCount
  let nOpCount := nOpCount + nKeysCount
  setErrorIf ((maxOpsPerScript : Int) < nOpCount) .opCount
  emit (.multisigKeys nKeysCount.toNat)
  let ikey := i + 1
  let i := i + 1 + nKeysCount
  setErrorIf ((stack.length : Int) < i) .invalidStackOperation
  let vch ← stacktop stack (-i)
  let nSigsCount := scriptNumGetInt (← CScriptNum.ofVch vch flags.minimalData defaultMaxNumSize)
  setErrorIf (nSigsCount < 0 ∨ nKeysCount < nSigsCount) .sigCount
  let isig := i + 1
  let i := i + 1 + nSigsCount
  setErrorIf ((stack.length : Int) < i) .invalidStackOperation
  let stack ← checkArguments crypto flags checker sigversion verify pbegincodehash stack i ikey isig
    nKeysCount nSigsCount
  return (nOpCount, stack)

def onStack (v : EvalVars) (op : List Bytes → Step (List Bytes)) : Step EvalVars := do
  let stack ← op v.stack
  return { v with stack }

/-- The body of the switch for the operations that do not check signatures. `fExec` is false only
for the conditional opcodes, which run in skipped branches too; `pc` is the script after the
operation. -/
def execPlain (fExec : Bool) (pc : CScript) (op : Op) (v : EvalVars) : Step EvalVars :=
  match op with
  | .smallInt n => onStack v fun stack => do
      let vch ← CScriptNum.getvch n
      return pushBack stack vch
  | .nop => pure v
  | .checkLockTimeVerify =>
      if flags.checkLockTimeVerify then do
        execCheckLockTimeVerify flags checker v.stack
        return v
      else pure v
  | .checkSequenceVerify =>
      if flags.checkSequenceVerify then do
        execCheckSequenceVerify flags checker v.stack
        return v
      else pure v
  | .upgradableNop => do
      setErrorIf flags.discourageUpgradableNops .discourageUpgradableNops
      return v
  | .opIf negated =>
      if fExec then execIf flags sigversion negated v
      else pure { v with vfExec := false :: v.vfExec }
  | .opElse =>
      match v.vfExec with
      | [] => setError .unbalancedConditional
      | fValue :: outer => pure { v with vfExec := (!fValue) :: outer }
  | .endIf =>
      match v.vfExec with
      | [] => setError .unbalancedConditional
      | _ :: outer => pure { v with vfExec := outer }
  | .verify => onStack v execVerify
  | .opReturn => setError .opReturn
  | .toAltStack => do
      needs v.stack 1
      let vch ← stacktop v.stack (-1)
      let stack ← popstack v.stack
      return { v with stack, altstack := pushBack v.altstack vch }
  | .fromAltStack => do
      setErrorIf (v.altstack.length < 1) .invalidAltstackOperation
      let vch ← stacktop v.altstack (-1)
      let altstack ← popstack v.altstack
      return { v with stack := pushBack v.stack vch, altstack }
  | .pick => onStack v (execPickRoll flags false)
  | .roll => onStack v (execPickRoll flags true)
  | .equal verify => onStack v (execEqual verify)
  | .unary op => onStack v (execUnary flags op)
  | .binary op => onStack v (execBinary flags op)
  | .within => onStack v (execWithin flags)
  | .hash op => onStack v (execHash crypto op)
  | .codeSeparator => pure { v with pbegincodehash := pc }
  | .bad => setError .badOpcode
  | op => onStack v (stackOp op)

def execOp (fExec : Bool) (pc : CScript) (op : Op) (v : EvalVars) : Run EvalVars :=
  match op with
  | .checkSig verify => do
      let stack ← execCheckSig crypto flags checker sigversion verify v.pbegincodehash v.stack
      return { v with stack }
  | .checkMultiSig verify => do
      let (nOpCount, stack) ← execCheckMultiSig crypto flags checker sigversion verify
        v.pbegincodehash v.nOpCount v.stack
      return { v with nOpCount, stack }
  | op => execPlain crypto flags checker sigversion fExec pc op v

/-- What a turn does with the operation it has read: push, execute, or skip. -/
def execOperation (fExec : Bool) (opcode : UInt8) (vchPushValue : Bytes) (pc : CScript)
    (v : EvalVars) : Run EvalVars :=
  if fExec ∧ opcode ≤ Opcode.pushData4 then do
    emit (.operation opcode)
    setErrorIf (flags.minimalData ∧ ¬ checkMinimalPush vchPushValue opcode) .minimalData
    return { v with stack := pushBack v.stack vchPushValue }
  else if fExec ∨ (Opcode.opIf ≤ opcode ∧ opcode ≤ Opcode.opEndIf) then do
    emit (.operation opcode)
    execOp crypto flags checker sigversion fExec pc (Op.ofOpcode opcode) v
  else pure v

def evalTurn (opcode : UInt8) (vchPushValue : Bytes) (pc : CScript) (v : EvalVars) :
    Run EvalVars := do
  let fExec := v.vfExec.all id
  setErrorIf (maxScriptElementSize < vchPushValue.length) .pushSize
  -- OP_RESERVED does not count towards the opcode limit
  let nOpCount := if Opcode.op16 < opcode then v.nOpCount + 1 else v.nOpCount
  setErrorIf (Opcode.op16 < opcode ∧ (maxOpsPerScript : Int) < nOpCount) .opCount
  setErrorIf (isDisabledOpcode opcode) .disabledOpcode
  setErrorIf (opcode = Opcode.opCodeSeparator ∧ sigversion = .base ∧ flags.constScriptCode)
    .opCodeSeparator
  let v ← execOperation crypto flags checker sigversion fExec opcode vchPushValue pc
    { v with nOpCount }
  setErrorIf (maxStackSize < v.stack.length + v.altstack.length) .stackSize
  emit (.turn v.stack v.altstack)
  return v

def evalLoop : (turns : Nat) → (pc : CScript) → (v : EvalVars) → Run EvalVars
  | _, [], v => pure v
  | 0, _ :: _, _ => fail .turns
  | turns + 1, pc, v =>
      match getScriptOp pc with
      | none => fail (.script .badOpcode)
      | some (opcode, vchPushValue, rest) => do
          let v ← evalTurn crypto flags checker sigversion opcode vchPushValue rest v
          evalLoop turns rest v

/-- `EvalScript` with the flags it looks at: the stack left by the script. -/
def evalScriptWith (stack : List Bytes) (script : CScript) : Run (List Bytes) := do
  setErrorIf (maxScriptSize < script.length) .scriptSize
  let v ← evalLoop crypto flags checker sigversion script.length script
    { stack, altstack := [], vfExec := [], pbegincodehash := script, nOpCount := 0 }
  setErrorIf (v.vfExec ≠ []) .unbalancedConditional
  return v.stack

end Exec

def evalScript (crypto : Crypto) (stack : List Bytes) (script : CScript) (flags : UInt32)
    (checker : SignatureChecker) (sigversion : SigVersion) : Run (List Bytes) :=
  evalScriptWith crypto (evalFlags flags) checker sigversion stack script

def back (stack : List Bytes) : Step Bytes :=
  orStop .iterator (atFromEnd? stack 1)

def requireTrue (stack : List Bytes) : Step Unit := do
  setErrorIf (stack = []) .evalFalse
  let top ← back stack
  setErrorIf (¬ castToBool top) .evalFalse

/-- How `VerifyScript` fails, as a reason to stop. -/
def Stop.ofFailure : VerifyFailure → Stop
  | .script serror => .script serror
  | .assertion condition => .assertion condition

section Verify

variable (crypto : Crypto) (flags : UInt32) (checker : SignatureChecker)

def verifyWitnessProgram (witness : CScriptWitness) (witversion : Nat) (program : Bytes) :
    Run Unit :=
  if witversion = 0 then do
    let (scriptPubKey, stack) ← call (witnessV0Script crypto witness program)
    setErrorIf (∃ vch ∈ stack, maxScriptElementSize < vch.length) .pushSize
    let stack ← evalScript crypto (storage stack) scriptPubKey flags checker .witnessV0
    setErrorIf (stack.length ≠ 1) .cleanStack
    requireTrue stack
  else
    setErrorIf (hasFlag flags scriptVerifyDiscourageUpgradableWitnessProgram)
      .discourageUpgradableWitnessProgram

def witnessStage (script : CScript) (witness : CScriptWitness) (wellFormed : Bool)
    (malleated : ScriptError) : Run Bool :=
  if ¬ hasFlag flags scriptVerifyWitness then pure false
  else
    match isWitnessProgram script with
    | none => pure false
    | some (version, program) => do
        setErrorIf (¬ wellFormed) malleated
        verifyWitnessProgram crypto flags checker witness version program
        return true

/-- The stage of `VerifyScript` that runs the redeem script on the stack the scriptSig left. -/
def scriptHashStage (scriptSig : CScript) (witness : CScriptWitness) (stackCopy : List Bytes) :
    Run (List Bytes × Bool) := do
  setErrorIf (¬ isPushOnly scriptSig) .sigPushOnly
  rejectIf (stackCopy = []) (Stop.assertion "!stack.empty()")
  let pubKeySerialized ← back stackCopy
  let stack ← popstack stackCopy
  let stack ← evalScript crypto stack pubKeySerialized flags checker .base
  requireTrue stack
  let hadWitness ← witnessStage crypto flags checker pubKeySerialized witness
    (scriptSig = pushBytes pubKeySerialized) .witnessMalleatedP2SH
  return (if hadWitness then stack.take 1 else stack, hadWitness)

def extraStage (scriptSig scriptPubKey : CScript) (witness : CScriptWitness)
    (stackCopy stack : List Bytes) : Run (List Bytes × Bool) :=
  if hasFlag flags scriptVerifyP2SH ∧ isPayToScriptHash scriptPubKey then
    scriptHashStage crypto flags checker scriptSig witness stackCopy
  else pure (stack, false)

def verifyScript (scriptSig scriptPubKey : CScript) (witness : CScriptWitness) : Run Unit := do
  setErrorIf (hasFlag flags scriptVerifySigPushOnly ∧ ¬ isPushOnly scriptSig) .sigPushOnly
  let stackCopy ← evalScript crypto [] scriptSig flags checker .base
  let stack ← evalScript crypto stackCopy scriptPubKey flags checker .base
  requireTrue stack
  let bareWitness ← witnessStage crypto flags checker scriptPubKey witness (scriptSig = [])
    .witnessMalleated
  let stack := if bareWitness then stack.take 1 else stack
  let (stack, p2shWitness) ←
    extraStage crypto flags checker scriptSig scriptPubKey witness stackCopy stack
  (checkCleanStack flags stack).mapError Stop.ofFailure
  (checkUnexpectedWitness flags (bareWitness || p2shWitness) witness).mapError Stop.ofFailure

end Verify

end Verium.Machine
