import Verium.Script.ScriptNum
import Verium.Script.SignatureHash

/-!
The script interpreter: `EvalScript` as a fold of one step function over the operations
of the script, `VerifyScript` on top of it, and the signature checker of a transaction
input. Stacks are lists with the top first, so `stacktop(-1)` is the head.
-/

namespace Verium

open Lib

def scriptVerifyNone : UInt32 := 0
def scriptVerifyP2SH : UInt32 := 0x1
def scriptVerifyStrictEnc : UInt32 := 0x2
def scriptVerifyDerSig : UInt32 := 0x4
def scriptVerifyLowS : UInt32 := 0x8
def scriptVerifyNullDummy : UInt32 := 0x10
def scriptVerifySigPushOnly : UInt32 := 0x20
def scriptVerifyMinimalData : UInt32 := 0x40
def scriptVerifyDiscourageUpgradableNops : UInt32 := 0x80
def scriptVerifyCleanStack : UInt32 := 0x100
def scriptVerifyCheckLockTimeVerify : UInt32 := 0x200
def scriptVerifyCheckSequenceVerify : UInt32 := 0x400
def scriptVerifyWitness : UInt32 := 0x800
def scriptVerifyDiscourageUpgradableWitnessProgram : UInt32 := 0x1000
def scriptVerifyMinimalIf : UInt32 := 0x2000
def scriptVerifyNullFail : UInt32 := 0x4000
def scriptVerifyWitnessPubkeyType : UInt32 := 0x8000
def scriptVerifyConstScriptCode : UInt32 := 0x10000

/-- `flags & flag`. -/
def hasFlag (flags flag : UInt32) : Bool :=
  flags &&& flag ≠ 0

/-- `MANDATORY_SCRIPT_VERIFY_FLAGS` of `script/standard.h`. -/
def mandatoryScriptVerifyFlags : UInt32 :=
  scriptVerifyP2SH

/-- The flags that `EvalScript` and the encoding checks it calls look at. The others, the
one for pay-to-script-hash among them, are read by `VerifyScript` only. -/
structure EvalFlags where
  strictEnc : Bool
  derSig : Bool
  lowS : Bool
  nullDummy : Bool
  minimalData : Bool
  discourageUpgradableNops : Bool
  checkLockTimeVerify : Bool
  checkSequenceVerify : Bool
  minimalIf : Bool
  nullFail : Bool
  witnessPubkeyType : Bool
  constScriptCode : Bool
deriving DecidableEq, Repr

def evalFlags (flags : UInt32) : EvalFlags where
  strictEnc := hasFlag flags scriptVerifyStrictEnc
  derSig := hasFlag flags scriptVerifyDerSig
  lowS := hasFlag flags scriptVerifyLowS
  nullDummy := hasFlag flags scriptVerifyNullDummy
  minimalData := hasFlag flags scriptVerifyMinimalData
  discourageUpgradableNops := hasFlag flags scriptVerifyDiscourageUpgradableNops
  checkLockTimeVerify := hasFlag flags scriptVerifyCheckLockTimeVerify
  checkSequenceVerify := hasFlag flags scriptVerifyCheckSequenceVerify
  minimalIf := hasFlag flags scriptVerifyMinimalIf
  nullFail := hasFlag flags scriptVerifyNullFail
  witnessPubkeyType := hasFlag flags scriptVerifyWitnessPubkeyType
  constScriptCode := hasFlag flags scriptVerifyConstScriptCode

/-- The mandatory flags add nothing that `EvalScript` looks at. -/
theorem evalFlags_mandatory :
    evalFlags mandatoryScriptVerifyFlags = evalFlags scriptVerifyNone := by
  decide

inductive SigVersion where
  | base
  | witnessV0
deriving DecidableEq, Repr

/-- `BaseSignatureChecker`: the answers the interpreter asks of its context. -/
structure SignatureChecker where
  checkSig : (vchSig vchPubKey : Bytes) → (scriptCode : CScript) → SigVersion → Bool
  checkLockTime : (nLockTime : Int) → Bool
  checkSequence : (nSequence : Int) → Bool

section Encoding

variable (crypto : Crypto) (flags : EvalFlags)

def isLowDERSignature (vchSig : Bytes) : Except ScriptError Unit := do
  rejectIf (¬ isValidSignatureEncoding vchSig) .sigDer
  rejectIf (¬ crypto.checkLowS vchSig.dropLast) .sigHighS

def checkSignatureEncoding (vchSig : Bytes) : Except ScriptError Unit :=
  if vchSig.isEmpty then .ok ()
  else if (flags.derSig ∨ flags.lowS ∨ flags.strictEnc) ∧
      ¬ isValidSignatureEncoding vchSig then
    .error .sigDer
  else do
    -- the branches of the source are an else-if chain: the hash type is only looked at
    -- when the low-S test passes or is off
    if flags.lowS then isLowDERSignature crypto vchSig
    rejectIf (flags.strictEnc ∧ ¬ isDefinedHashtypeSignature vchSig) .sigHashtype

def checkPubKeyEncoding (vchPubKey : Bytes) (sigversion : SigVersion) :
    Except ScriptError Unit := do
  rejectIf (flags.strictEnc ∧ ¬ isCompressedOrUncompressedPubKey vchPubKey) .pubkeyType
  rejectIf (flags.witnessPubkeyType ∧ sigversion = .witnessV0 ∧
    ¬ isCompressedPubKey vchPubKey) .witnessPubkeyType

end Encoding

/-- The one-operand numeric opcodes. -/
inductive UnaryOp where
  | add1 | sub1 | negate | abs | not | notEqual0
deriving DecidableEq, Repr

/-- The two-operand numeric opcodes. -/
inductive BinaryOp where
  | add | sub | boolAnd | boolOr | numEqual | numEqualVerify | numNotEqual | lessThan
  | greaterThan | lessThanOrEqual | greaterThanOrEqual | min | max
deriving DecidableEq, Repr

/-- The hashing opcodes. -/
inductive HashOp where
  | ripemd160 | sha1 | sha256 | hash160 | hash256
deriving DecidableEq, Repr

/-- The cases of the switch in `EvalScript`. -/
inductive Op where
  | smallInt (n : Int)
  | nop | checkLockTimeVerify | checkSequenceVerify | upgradableNop
  | opIf (negated : Bool) | opElse | endIf | verify | opReturn
  | toAltStack | fromAltStack | drop2 | dup2 | dup3 | over2 | rot2 | swap2 | ifDup | depth
  | drop | dup | nip | over | pick | roll | rot | swap | tuck | size
  | equal (verify : Bool)
  | unary (op : UnaryOp) | binary (op : BinaryOp) | within
  | hash (op : HashOp) | codeSeparator
  | checkSig (verify : Bool) | checkMultiSig (verify : Bool)
  | bad
deriving DecidableEq, Repr

/-- The case an opcode selects. Pushes up to `OP_PUSHDATA4` are handled before the switch
and the disabled opcodes are rejected before it; neither gets here. -/
def Op.ofOpcode (opcode : UInt8) : Op :=
  if opcode = 0x4f ∨ (0x51 ≤ opcode ∧ opcode ≤ 0x60) then .smallInt (opcode.toNat - 0x50)
  else
    match opcode.toNat with
    | 0x61 => .nop
    | 0xb1 => .checkLockTimeVerify
    | 0xb2 => .checkSequenceVerify
    | 0xb0 | 0xb3 | 0xb4 | 0xb5 | 0xb6 | 0xb7 | 0xb8 | 0xb9 => .upgradableNop
    | 0x63 => .opIf false
    | 0x64 => .opIf true
    | 0x67 => .opElse
    | 0x68 => .endIf
    | 0x69 => .verify
    | 0x6a => .opReturn
    | 0x6b => .toAltStack
    | 0x6c => .fromAltStack
    | 0x6d => .drop2
    | 0x6e => .dup2
    | 0x6f => .dup3
    | 0x70 => .over2
    | 0x71 => .rot2
    | 0x72 => .swap2
    | 0x73 => .ifDup
    | 0x74 => .depth
    | 0x75 => .drop
    | 0x76 => .dup
    | 0x77 => .nip
    | 0x78 => .over
    | 0x79 => .pick
    | 0x7a => .roll
    | 0x7b => .rot
    | 0x7c => .swap
    | 0x7d => .tuck
    | 0x82 => .size
    | 0x87 => .equal false
    | 0x88 => .equal true
    | 0x8b => .unary .add1
    | 0x8c => .unary .sub1
    | 0x8f => .unary .negate
    | 0x90 => .unary .abs
    | 0x91 => .unary .not
    | 0x92 => .unary .notEqual0
    | 0x93 => .binary .add
    | 0x94 => .binary .sub
    | 0x9a => .binary .boolAnd
    | 0x9b => .binary .boolOr
    | 0x9c => .binary .numEqual
    | 0x9d => .binary .numEqualVerify
    | 0x9e => .binary .numNotEqual
    | 0x9f => .binary .lessThan
    | 0xa0 => .binary .greaterThan
    | 0xa1 => .binary .lessThanOrEqual
    | 0xa2 => .binary .greaterThanOrEqual
    | 0xa3 => .binary .min
    | 0xa4 => .binary .max
    | 0xa5 => .within
    | 0xa6 => .hash .ripemd160
    | 0xa7 => .hash .sha1
    | 0xa8 => .hash .sha256
    | 0xa9 => .hash .hash160
    | 0xaa => .hash .hash256
    | 0xab => .codeSeparator
    | 0xac => .checkSig false
    | 0xad => .checkSig true
    | 0xae => .checkMultiSig false
    | 0xaf => .checkMultiSig true
    | _ => .bad

/-- `OP_CAT`, `OP_SUBSTR`, `OP_LEFT`, `OP_RIGHT`, `OP_INVERT`, `OP_AND`, `OP_OR`, `OP_XOR`,
`OP_2MUL`, `OP_2DIV`, `OP_MUL`, `OP_DIV`, `OP_MOD`, `OP_LSHIFT` and `OP_RSHIFT`. -/
def isDisabledOpcode (opcode : UInt8) : Bool :=
  opcode ∈ [0x7e, 0x7f, 0x80, 0x81, 0x83, 0x84, 0x85, 0x86, 0x8d, 0x8e, 0x95, 0x96, 0x97,
    0x98, 0x99]

/-- The variables of `EvalScript` that live across operations. -/
structure EvalState where
  stack : List Bytes
  altstack : List Bytes
  /-- The open conditionals, innermost first. -/
  vfExec : List Bool
  /-- The script from the most recent executed `OP_CODESEPARATOR` on. -/
  pbegincodehash : CScript
  nOpCount : Nat
deriving DecidableEq, Repr

/-- What an operation that only touches the main stack does to it; `none` when the stack
is too small, which every such operation reports in the same way. -/
def stackOp (op : Op) (stack : List Bytes) : Option (List Bytes) :=
  match op, stack with
  | .drop2, _ :: _ :: s => some s
  | .dup2, x2 :: x1 :: s => some (x2 :: x1 :: x2 :: x1 :: s)
  | .dup3, x3 :: x2 :: x1 :: s => some (x3 :: x2 :: x1 :: x3 :: x2 :: x1 :: s)
  | .over2, x4 :: x3 :: x2 :: x1 :: s => some (x2 :: x1 :: x4 :: x3 :: x2 :: x1 :: s)
  | .rot2, x6 :: x5 :: x4 :: x3 :: x2 :: x1 :: s =>
      some (x2 :: x1 :: x6 :: x5 :: x4 :: x3 :: s)
  | .swap2, x4 :: x3 :: x2 :: x1 :: s => some (x2 :: x1 :: x4 :: x3 :: s)
  | .ifDup, x :: s => some (if castToBool x then x :: x :: s else x :: s)
  | .depth, s => some (scriptNumSerialize s.length :: s)
  | .drop, _ :: s => some s
  | .dup, x :: s => some (x :: x :: s)
  | .nip, x2 :: _ :: s => some (x2 :: s)
  | .over, x2 :: x1 :: s => some (x1 :: x2 :: x1 :: s)
  | .rot, x3 :: x2 :: x1 :: s => some (x1 :: x3 :: x2 :: s)
  | .swap, x2 :: x1 :: s => some (x1 :: x2 :: s)
  | .tuck, x2 :: x1 :: s => some (x2 :: x1 :: x2 :: s)
  | .size, x :: s => some (scriptNumSerialize x.length :: x :: s)
  | _, _ => none

def UnaryOp.eval : UnaryOp → Int → Int
  | .add1, bn => bn + 1
  | .sub1, bn => bn - 1
  | .negate, bn => -bn
  | .abs, bn => if bn < 0 then -bn else bn
  | .not, bn => if bn = 0 then 1 else 0
  | .notEqual0, bn => if bn ≠ 0 then 1 else 0

def BinaryOp.eval (op : BinaryOp) (bn1 bn2 : Int) : Int :=
  let ofBool : Bool → Int := fun b => if b then 1 else 0
  match op with
  | .add => bn1 + bn2
  | .sub => bn1 - bn2
  | .boolAnd => ofBool (bn1 ≠ 0 && bn2 ≠ 0)
  | .boolOr => ofBool (bn1 ≠ 0 || bn2 ≠ 0)
  | .numEqual => ofBool (bn1 = bn2)
  | .numEqualVerify => ofBool (bn1 = bn2)
  | .numNotEqual => ofBool (bn1 ≠ bn2)
  | .lessThan => ofBool (bn1 < bn2)
  | .greaterThan => ofBool (bn1 > bn2)
  | .lessThanOrEqual => ofBool (bn1 ≤ bn2)
  | .greaterThanOrEqual => ofBool (bn1 ≥ bn2)
  | .min => if bn1 < bn2 then bn1 else bn2
  | .max => if bn1 > bn2 then bn1 else bn2

def HashOp.eval (crypto : Crypto) : HashOp → Bytes → Bytes
  | .ripemd160, vch => leBytes 20 (crypto.ripemd160 vch).toNat
  | .sha1, vch => leBytes 20 (crypto.sha1 vch).toNat
  | .sha256, vch => serUInt256 (crypto.sha256 vch)
  | .hash160, vch => leBytes 20 (crypto.hash160 vch).toNat
  | .hash256, vch => serUInt256 (crypto.hash vch)

section Exec

variable (crypto : Crypto) (flags : EvalFlags) (checker : SignatureChecker)
  (sigversion : SigVersion)

/-- `FindAndDelete` of a signature from the script code, in base scripts only. -/
def dropSignature (scriptCode : CScript) (vchSig : Bytes) : Except ScriptError CScript :=
  match sigversion with
  | .witnessV0 => .ok scriptCode
  | .base => do
      let (scriptCode, found) := findAndDelete scriptCode (pushBytes vchSig)
      rejectIf (0 < found ∧ flags.constScriptCode) .sigFindAndDelete
      return scriptCode

/-- The two encoding checks, then the signature check itself. -/
def checkOneSig (scriptCode : CScript) (vchSig vchPubKey : Bytes) :
    Except ScriptError Bool := do
  checkSignatureEncoding crypto flags vchSig
  checkPubKeyEncoding flags vchPubKey sigversion
  return checker.checkSig vchSig vchPubKey scriptCode sigversion

/-- The `OP_*VERIFY` ending: push the result, or demand it. -/
def pushOrVerify (verify : Bool) (err : ScriptError) (fSuccess : Bool)
    (stack : List Bytes) : Except ScriptError (List Bytes) :=
  if verify then do
    rejectIf (¬ fSuccess) err
    return stack
  else .ok (vchOfBool fSuccess :: stack)

/-- `OP_CHECKSIG` and `OP_CHECKSIGVERIFY`. -/
def execCheckSig (verify : Bool) (pbegincodehash : CScript) (stack : List Bytes) :
    Except ScriptError (List Bytes) :=
  match stack with
  | vchPubKey :: vchSig :: rest => do
      let scriptCode ← dropSignature flags sigversion pbegincodehash vchSig
      let fSuccess ← checkOneSig crypto flags checker sigversion scriptCode vchSig vchPubKey
      rejectIf (¬ fSuccess ∧ flags.nullFail ∧ vchSig ≠ []) .sigNullFail
      pushOrVerify verify .checkSigVerify fSuccess rest
  | _ => .error .invalidStackOperation

/-- The matching loop of `OP_CHECKMULTISIG`: each key is tried once, in order, against the
first signature not matched yet. -/
def checkMultiSigLoop (scriptCode : CScript) :
    (keys sigs : List Bytes) → Except ScriptError Bool
  | _, [] => .ok true
  | [], _ :: _ => .ok false
  | vchPubKey :: keys, vchSig :: sigs => do
      let fOk ← checkOneSig crypto flags checker sigversion scriptCode vchSig vchPubKey
      let sigs := if fOk then sigs else vchSig :: sigs
      if keys.length < sigs.length then return false
      checkMultiSigLoop scriptCode keys sigs

/-- `OP_CHECKMULTISIG` and `OP_CHECKMULTISIGVERIFY`, returning the operation count with
the stack. From the top the stack holds the number of keys, the keys, the number of
signatures, the signatures, and one more element that is only popped. -/
def execCheckMultiSig (verify : Bool) (pbegincodehash : CScript) (nOpCount : Nat)
    (stack : List Bytes) : Except ScriptError (Nat × List Bytes) := do
  let keysCount :: rest := stack | .error .invalidStackOperation
  let nKeysCount ← scriptNumGetInt <$> scriptNum keysCount flags.minimalData defaultMaxNumSize
  rejectIf (nKeysCount < 0 ∨ (maxPubkeysPerMultisig : Int) < nKeysCount) .pubkeyCount
  let nKeys := nKeysCount.toNat
  let nOpCount := nOpCount + nKeys
  rejectIf (maxOpsPerScript < nOpCount) .opCount
  let keys := rest.take nKeys
  let sigsCount :: rest := rest.drop nKeys | .error .invalidStackOperation
  let nSigsCount ← scriptNumGetInt <$> scriptNum sigsCount flags.minimalData defaultMaxNumSize
  rejectIf (nSigsCount < 0 ∨ nKeysCount < nSigsCount) .sigCount
  let nSigs := nSigsCount.toNat
  rejectIf (rest.length < nSigs + 1) .invalidStackOperation
  let sigs := rest.take nSigs
  let scriptCode ← sigs.foldlM (dropSignature flags sigversion) pbegincodehash
  let fSuccess ← checkMultiSigLoop crypto flags checker sigversion scriptCode keys sigs
  -- the clean-up loop looks at the signatures once the other arguments are popped
  rejectIf (¬ fSuccess ∧ flags.nullFail ∧ ∃ sig ∈ sigs, sig ≠ []) .sigNullFail
  let dummy :: rest := rest.drop nSigs | .error .invalidStackOperation
  rejectIf (flags.nullDummy ∧ dummy ≠ []) .sigNullDummy
  let stack ← pushOrVerify verify .checkMultiSigVerify fSuccess rest
  return (nOpCount, stack)

/-- A lock-time argument: up to five bytes, and not negative. -/
def lockTimeOperand (vch : Bytes) : Except ScriptError Int := do
  let n ← scriptNum vch flags.minimalData 5
  rejectIf (n < 0) .negativeLocktime
  return n

/-- A numeric operand of the usual four bytes. -/
def operand (vch : Bytes) : Except ScriptError Int :=
  scriptNum vch flags.minimalData defaultMaxNumSize

/-- The condition of `OP_IF` and `OP_NOTIF`, taken from the top of the stack. -/
def ifCondition (negated : Bool) (vch : Bytes) : Except ScriptError Bool := do
  rejectIf (sigversion = .witnessV0 ∧ flags.minimalIf ∧
    (1 < vch.length ∨ vch.length = 1 ∧ vch ≠ [1])) .minimalIf
  return castToBool vch != negated

/-- The body of the switch. `fExec` is false only for the conditional opcodes, which run in
skipped branches too; `pc` is the script after the operation. -/
def execOp (fExec : Bool) (pc : CScript) (op : Op) (s : EvalState) : Except ScriptError EvalState :=
  match op, s.stack with
  | .smallInt n, stack => .ok { s with stack := scriptNumSerialize n :: stack }
  | .nop, _ => .ok s
  | .checkLockTimeVerify, stack => do
      if ¬ flags.checkLockTimeVerify then return s
      let vch :: _ := stack | .error .invalidStackOperation
      let nLockTime ← lockTimeOperand flags vch
      rejectIf (¬ checker.checkLockTime nLockTime) .unsatisfiedLocktime
      return s
  | .checkSequenceVerify, stack => do
      if ¬ flags.checkSequenceVerify then return s
      let vch :: _ := stack | .error .invalidStackOperation
      let nSequence ← lockTimeOperand flags vch
      -- with the disable flag set the operation is a no-op
      if nSequence.toNat.testBit 31 then return s
      rejectIf (¬ checker.checkSequence nSequence) .unsatisfiedLocktime
      return s
  | .upgradableNop, _ => do
      rejectIf flags.discourageUpgradableNops .discourageUpgradableNops
      return s
  | .opIf negated, stack => do
      if ¬ fExec then return { s with vfExec := false :: s.vfExec }
      let vch :: rest := stack | .error .unbalancedConditional
      let fValue ← ifCondition flags sigversion negated vch
      return { s with stack := rest, vfExec := fValue :: s.vfExec }
  | .opElse, _ =>
      match s.vfExec with
      | [] => .error .unbalancedConditional
      | fValue :: outer => .ok { s with vfExec := (!fValue) :: outer }
  | .endIf, _ =>
      match s.vfExec with
      | [] => .error .unbalancedConditional
      | _ :: outer => .ok { s with vfExec := outer }
  | .verify, vch :: rest => do
      rejectIf (¬ castToBool vch) .verify
      return { s with stack := rest }
  | .opReturn, _ => .error .opReturn
  | .toAltStack, vch :: rest => .ok { s with stack := rest, altstack := vch :: s.altstack }
  | .fromAltStack, stack =>
      match s.altstack with
      | [] => .error .invalidAltstackOperation
      | vch :: rest => .ok { s with stack := vch :: stack, altstack := rest }
  | .pick, vch :: rest@(_ :: _) => do
      let n := scriptNumGetInt (← operand flags vch)
      rejectIf (n < 0 ∨ (rest.length : Int) ≤ n) .invalidStackOperation
      return { s with stack := rest.getD n.toNat [] :: rest }
  | .roll, vch :: rest@(_ :: _) => do
      let n := scriptNumGetInt (← operand flags vch)
      rejectIf (n < 0 ∨ (rest.length : Int) ≤ n) .invalidStackOperation
      return { s with stack := rest.getD n.toNat [] :: rest.eraseIdx n.toNat }
  | .equal verify, vch2 :: vch1 :: rest => do
      let stack ← pushOrVerify verify .equalVerify (vch1 = vch2) rest
      return { s with stack }
  | .unary op, vch :: rest => do
      let bn ← operand flags vch
      return { s with stack := scriptNumSerialize (op.eval bn) :: rest }
  | .binary op, vch2 :: vch1 :: rest => do
      let bn1 ← operand flags vch1
      let bn2 ← operand flags vch2
      let vch := scriptNumSerialize (op.eval bn1 bn2)
      if op = .numEqualVerify then
        rejectIf (¬ castToBool vch) .numEqualVerify
        return { s with stack := rest }
      return { s with stack := vch :: rest }
  | .within, vch3 :: vch2 :: vch1 :: rest => do
      let bn1 ← operand flags vch1
      let bn2 ← operand flags vch2
      let bn3 ← operand flags vch3
      return { s with stack := vchOfBool (bn2 ≤ bn1 && bn1 < bn3) :: rest }
  | .hash op, vch :: rest => .ok { s with stack := op.eval crypto vch :: rest }
  | .codeSeparator, _ => .ok { s with pbegincodehash := pc }
  | .checkSig verify, stack => do
      let stack ←
        execCheckSig crypto flags checker sigversion verify s.pbegincodehash stack
      return { s with stack }
  | .checkMultiSig verify, stack => do
      let (nOpCount, stack) ←
        execCheckMultiSig crypto flags checker sigversion verify s.pbegincodehash
          s.nOpCount stack
      return { s with nOpCount, stack }
  | .bad, _ => .error .badOpcode
  | op, stack =>
      match stackOp op stack with
      | none => .error .invalidStackOperation
      | some stack => .ok { s with stack }

/-- One turn of the loop of `EvalScript`. -/
def evalStep (s : EvalState) : ScriptRead → Except ScriptError EvalState
  | .bad => .error .badOpcode
  | .op opcode vchPushValue pc => do
      let fExec := s.vfExec.all id
      rejectIf (maxScriptElementSize < vchPushValue.length) .pushSize
      -- OP_RESERVED does not count towards the opcode limit
      let nOpCount := if Opcode.op16 < opcode then s.nOpCount + 1 else s.nOpCount
      rejectIf (Opcode.op16 < opcode ∧ maxOpsPerScript < nOpCount) .opCount
      rejectIf (isDisabledOpcode opcode) .disabledOpcode
      rejectIf (opcode = Opcode.opCodeSeparator ∧ sigversion = .base ∧ flags.constScriptCode)
        .opCodeSeparator
      let s := { s with nOpCount }
      let s ←
        if fExec ∧ opcode ≤ Opcode.pushData4 then do
          rejectIf (flags.minimalData ∧ ¬ checkMinimalPush vchPushValue opcode) .minimalData
          pure { s with stack := vchPushValue :: s.stack }
        else if fExec ∨ (Opcode.opIf ≤ opcode ∧ opcode ≤ Opcode.opEndIf) then
          execOp crypto flags checker sigversion fExec pc (Op.ofOpcode opcode) s
        else pure s
      rejectIf (maxStackSize < s.stack.length + s.altstack.length) .stackSize
      return s

/-- `EvalScript` with the flags it looks at: the stack left by the script. -/
def evalScriptWith (stack : List Bytes) (script : CScript) :
    Except ScriptError (List Bytes) := do
  rejectIf (maxScriptSize < script.length) .scriptSize
  let s ← (scriptOps script).foldlM (evalStep crypto flags checker sigversion)
    { stack, altstack := [], vfExec := [], pbegincodehash := script, nOpCount := 0 }
  rejectIf (s.vfExec ≠ []) .unbalancedConditional
  return s.stack

end Exec

def evalScript (crypto : Crypto) (stack : List Bytes) (script : CScript) (flags : UInt32)
    (checker : SignatureChecker) (sigversion : SigVersion) : Except ScriptError (List Bytes) :=
  evalScriptWith crypto (evalFlags flags) checker sigversion stack script

/-- The stack is not empty and its top is true. -/
def requireTrue (stack : List Bytes) : Except ScriptError Unit :=
  match stack with
  | [] => .error .evalFalse
  | top :: _ => rejectIf (¬ castToBool top) .evalFalse

/-- `stack.resize(1)`, which keeps the bottom element. -/
def resizeToOne (stack : List Bytes) : List Bytes :=
  stack.drop (stack.length - 1)

section Verify

variable (crypto : Crypto) (flags : UInt32) (checker : SignatureChecker)

def witnessV0ScriptHashSize : Nat := 32
def witnessV0KeyHashSize : Nat := 20

/-- The script and stack a version 0 witness program runs. -/
def witnessV0Script (witness : CScriptWitness) (program : Bytes) :
    Except ScriptError (CScript × List Bytes) := do
  if program.length = witnessV0ScriptHashSize then
    let some script := witness.getLast? | .error .witnessProgramWitnessEmpty
    rejectIf (serUInt256 (crypto.sha256 script) ≠ program) .witnessProgramMismatch
    return (script, witness.dropLast.reverse)
  else if program.length = witnessV0KeyHashSize then
    rejectIf (witness.length ≠ 2) .witnessProgramMismatch
    return ([Opcode.opDup, Opcode.opHash160] ++ pushBytes program ++
      [Opcode.opEqualVerify, Opcode.opCheckSig], witness.reverse)
  else .error .witnessProgramWrongLength

def verifyWitnessProgram (witness : CScriptWitness) (witversion : Nat) (program : Bytes) :
    Except ScriptError Unit := do
  if witversion = 0 then
    let (scriptPubKey, stack) ← witnessV0Script crypto witness program
    rejectIf (∃ vch ∈ stack, maxScriptElementSize < vch.length) .pushSize
    let stack ← evalScript crypto stack scriptPubKey flags checker .witnessV0
    rejectIf (stack.length ≠ 1) .cleanStack
    requireTrue stack
  else
    rejectIf (hasFlag flags scriptVerifyDiscourageUpgradableWitnessProgram)
      .discourageUpgradableWitnessProgram

/-- The witness stage of `VerifyScript` for a script in program position: whether it was a
witness program, and if so the program has been verified. `wellFormed` is the demand on the
scriptSig, reported as `malleated` when it fails. -/
def witnessStage (script : CScript) (witness : CScriptWitness) (wellFormed : Bool)
    (malleated : ScriptError) : Except ScriptError Bool := do
  if ¬ hasFlag flags scriptVerifyWitness then return false
  match isWitnessProgram script with
  | none => return false
  | some (version, program) =>
      rejectIf (¬ wellFormed) malleated
      verifyWitnessProgram crypto flags checker witness version program
      return true

/-- How `VerifyScript` ends without success: with a script error, or in a failed assertion,
which aborts the process. -/
inductive VerifyFailure where
  | script (serror : ScriptError)
  | assertion (condition : String)
deriving DecidableEq, Repr

/-- The additional stage for pay-to-script-hash: the scriptSig is literals only and its
last push, run as a script on the rest of the stack, succeeds. Returns the stack left and
whether the redeem script was a witness program. -/
def scriptHashStage (scriptSig : CScript) (witness : CScriptWitness)
    (stackCopy : List Bytes) : Except VerifyFailure (List Bytes × Bool) := do
  rejectIf (¬ isPushOnly scriptSig) (.script .sigPushOnly)
  let pubKeySerialized :: stack := stackCopy | .error (.assertion "!stack.empty()")
  let stack ← (evalScript crypto stack pubKeySerialized flags checker .base).mapError .script
  (requireTrue stack).mapError .script
  let hadWitness ← (witnessStage crypto flags checker pubKeySerialized witness
    (scriptSig = pushBytes pubKeySerialized) .witnessMalleatedP2SH).mapError .script
  return (if hadWitness then resizeToOne stack else stack, hadWitness)

/-- The pay-to-script-hash stage, if it applies. -/
def extraStage (scriptSig scriptPubKey : CScript) (witness : CScriptWitness)
    (stackCopy stack : List Bytes) : Except VerifyFailure (List Bytes × Bool) :=
  if hasFlag flags scriptVerifyP2SH ∧ isPayToScriptHash scriptPubKey then
    scriptHashStage crypto flags checker scriptSig witness stackCopy
  else .ok (stack, false)

/-- The clean-stack test at the end of `VerifyScript`. -/
def checkCleanStack (stack : List Bytes) : Except VerifyFailure Unit :=
  checkWhen (hasFlag flags scriptVerifyCleanStack) do
    rejectIf (¬ hasFlag flags scriptVerifyP2SH)
      (.assertion "(flags & SCRIPT_VERIFY_P2SH) != 0")
    rejectIf (¬ hasFlag flags scriptVerifyWitness)
      (.assertion "(flags & SCRIPT_VERIFY_WITNESS) != 0")
    rejectIf (stack.length ≠ 1) (.script .cleanStack)

/-- The test for a witness that no program asked for. -/
def checkUnexpectedWitness (hadWitness : Bool) (witness : CScriptWitness) :
    Except VerifyFailure Unit :=
  checkWhen (hasFlag flags scriptVerifyWitness) do
    rejectIf (¬ hasFlag flags scriptVerifyP2SH)
      (.assertion "(flags & SCRIPT_VERIFY_P2SH) != 0")
    rejectIf (¬ hadWitness ∧ witness ≠ []) (.script .witnessUnexpected)

def verifyScript (scriptSig scriptPubKey : CScript) (witness : CScriptWitness) :
    Except VerifyFailure Unit := do
  rejectIf (hasFlag flags scriptVerifySigPushOnly ∧ ¬ isPushOnly scriptSig) (.script .sigPushOnly)
  let stackCopy ← (evalScript crypto [] scriptSig flags checker .base).mapError .script
  let stack ← (evalScript crypto stackCopy scriptPubKey flags checker .base).mapError .script
  (requireTrue stack).mapError .script
  let bareWitness ← (witnessStage crypto flags checker scriptPubKey witness
    (scriptSig = []) .witnessMalleated).mapError .script
  let stack := if bareWitness then resizeToOne stack else stack
  let (stack, p2shWitness) ←
    extraStage crypto flags checker scriptSig scriptPubKey witness stackCopy stack
  checkCleanStack flags stack
  checkUnexpectedWitness flags (bareWitness || p2shWitness) witness

end Verify

section TransactionSignatureChecker

variable (crypto : Crypto) (txTo : CTransaction) (nIn : Nat)

/-- `GenericTransactionSignatureChecker::CheckSig`: the hash type is the last byte of the
signature. -/
def txCheckSig (vchSig vchPubKey : Bytes) (scriptCode : CScript) : Bool :=
  pubKeyIsValid vchPubKey &&
    match vchSig.getLast? with
    | none => false
    | some nHashType =>
        crypto.verify vchPubKey
          (signatureHash 1 crypto.hash scriptCode txTo nIn (Int32.ofNat nHashType.toNat))
          vchSig.dropLast

/-- `CheckLockTime`; the last test reads the sequence number of the input itself. -/
def txCheckLockTime (nLockTime : Int) : Bool :=
  let txLockTime : Int := txTo.nLockTime.toNat
  let threshold : Int := locktimeThreshold
  ((txLockTime < threshold && nLockTime < threshold) ||
    (threshold ≤ txLockTime && threshold ≤ nLockTime)) &&
  nLockTime ≤ txLockTime &&
  (txTo.vin[nIn]?).map CTxIn.nSequence ≠ some CTxIn.sequenceFinal

def sequenceLocktimeDisableFlag : Nat := 0x80000000
def sequenceLocktimeTypeFlag : Nat := 0x400000
def sequenceLocktimeMask : Nat := 0xffff

/-- `CheckSequence`. -/
def txCheckSequence (nSequence : Int) : Bool :=
  let txToSequence := ((txTo.vin[nIn]?).map fun txin => txin.nSequence.toNat).getD 0
  let nLockTimeMask := sequenceLocktimeTypeFlag ||| sequenceLocktimeMask
  let txToSequenceMasked := txToSequence &&& nLockTimeMask
  let nSequenceMasked := nSequence.toNat &&& nLockTimeMask
  2 ≤ txTo.nVersion.toUInt32 &&
  txToSequence &&& sequenceLocktimeDisableFlag = 0 &&
  ((txToSequenceMasked < sequenceLocktimeTypeFlag &&
      nSequenceMasked < sequenceLocktimeTypeFlag) ||
    (sequenceLocktimeTypeFlag ≤ txToSequenceMasked &&
      sequenceLocktimeTypeFlag ≤ nSequenceMasked)) &&
  nSequenceMasked ≤ txToSequenceMasked

/-- The checker for input `nIn` of `txTo`. The amount and the precomputed hashes it is also
constructed with are used by nothing on this chain. -/
def transactionSignatureChecker : SignatureChecker where
  checkSig vchSig vchPubKey scriptCode _ := txCheckSig crypto txTo nIn vchSig vchPubKey scriptCode
  checkLockTime := txCheckLockTime txTo nIn
  checkSequence := txCheckSequence txTo nIn

end TransactionSignatureChecker

end Verium
