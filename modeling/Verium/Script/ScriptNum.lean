import Verium.Lib.Outcome
import Verium.Script.Script

/-!
Script numbers, script errors and the encoding checks on signatures and public keys.
-/

namespace Verium

open Lib

/-- `enum ScriptError`, without the success value. -/
inductive ScriptError where
  | unknownError
  | evalFalse
  | opReturn
  | scriptSize
  | pushSize
  | opCount
  | stackSize
  | sigCount
  | pubkeyCount
  | verify
  | equalVerify
  | checkMultiSigVerify
  | checkSigVerify
  | numEqualVerify
  | badOpcode
  | disabledOpcode
  | invalidStackOperation
  | invalidAltstackOperation
  | unbalancedConditional
  | negativeLocktime
  | unsatisfiedLocktime
  | sigHashtype
  | sigDer
  | minimalData
  | sigPushOnly
  | sigHighS
  | sigNullDummy
  | pubkeyType
  | cleanStack
  | minimalIf
  | sigNullFail
  | discourageUpgradableNops
  | discourageUpgradableWitnessProgram
  | witnessProgramWrongLength
  | witnessProgramWitnessEmpty
  | witnessProgramMismatch
  | witnessMalleated
  | witnessMalleatedP2SH
  | witnessUnexpected
  | witnessPubkeyType
  | opCodeSeparator
  | sigFindAndDelete
deriving DecidableEq, Repr

def scriptErrorString : ScriptError → String
  | .evalFalse =>
      "Script evaluated without error but finished with a false/empty top stack element"
  | .verify => "Script failed an OP_VERIFY operation"
  | .equalVerify => "Script failed an OP_EQUALVERIFY operation"
  | .checkMultiSigVerify => "Script failed an OP_CHECKMULTISIGVERIFY operation"
  | .checkSigVerify => "Script failed an OP_CHECKSIGVERIFY operation"
  | .numEqualVerify => "Script failed an OP_NUMEQUALVERIFY operation"
  | .scriptSize => "Script is too big"
  | .pushSize => "Push value size limit exceeded"
  | .opCount => "Operation limit exceeded"
  | .stackSize => "Stack size limit exceeded"
  | .sigCount => "Signature count negative or greater than pubkey count"
  | .pubkeyCount => "Pubkey count negative or limit exceeded"
  | .badOpcode => "Opcode missing or not understood"
  | .disabledOpcode => "Attempted to use a disabled opcode"
  | .invalidStackOperation => "Operation not valid with the current stack size"
  | .invalidAltstackOperation => "Operation not valid with the current altstack size"
  | .opReturn => "OP_RETURN was encountered"
  | .unbalancedConditional => "Invalid OP_IF construction"
  | .negativeLocktime => "Negative locktime"
  | .unsatisfiedLocktime => "Locktime requirement not satisfied"
  | .sigHashtype => "Signature hash type missing or not understood"
  | .sigDer => "Non-canonical DER signature"
  | .minimalData => "Data push larger than necessary"
  | .sigPushOnly => "Only non-push operators allowed in signatures"
  | .sigHighS => "Non-canonical signature: S value is unnecessarily high"
  | .sigNullDummy => "Dummy CHECKMULTISIG argument must be zero"
  | .minimalIf => "OP_IF/NOTIF argument must be minimal"
  | .sigNullFail => "Signature must be zero for failed CHECK(MULTI)SIG operation"
  | .discourageUpgradableNops => "NOPx reserved for soft-fork upgrades"
  | .discourageUpgradableWitnessProgram =>
      "Witness version reserved for soft-fork upgrades"
  | .pubkeyType => "Public key is neither compressed or uncompressed"
  | .cleanStack => "Extra items left on stack after execution"
  | .witnessProgramWrongLength => "Witness program has incorrect length"
  | .witnessProgramWitnessEmpty => "Witness program was passed an empty witness"
  | .witnessProgramMismatch => "Witness program hash mismatch"
  | .witnessMalleated => "Witness requires empty scriptSig"
  | .witnessMalleatedP2SH => "Witness requires only-redeemscript scriptSig"
  | .witnessUnexpected => "Witness provided for non-witness script"
  | .witnessPubkeyType => "Using non-compressed keys in segwit"
  | .opCodeSeparator => "Using OP_CODESEPARATOR in non-witness script"
  | .sigFindAndDelete => "Signature is found in scriptCode"
  | .unknownError => "unknown error"

/-- The magnitude of a script number, low byte first and without leading zeros. -/
def magnitudeBytes : (fuel : Nat) → Nat → Bytes
  | 0, _ => []
  | _, 0 => []
  | fuel + 1, n => UInt8.ofNat n :: magnitudeBytes fuel (n / 256)

/-- `CScriptNum::serialize`: sign and magnitude, the sign in the top bit of the last
byte. Eight bytes hold every 64-bit magnitude. -/
def scriptNumSerialize (value : Int) : Bytes :=
  let result := magnitudeBytes 8 value.natAbs
  match result.getLast? with
  | none => []
  | some back =>
      if back &&& 0x80 ≠ 0 then result ++ [if value < 0 then 0x80 else 0]
      else if value < 0 then result.dropLast ++ [back ||| 0x80]
      else result

/-- `CScriptNum::set_vch`. -/
def scriptNumSetVch (vch : Bytes) : Int :=
  match vch.getLast? with
  | none => 0
  | some back =>
      if back &&& 0x80 ≠ 0 then -(leNat (vch.dropLast ++ [back &&& 0x7f]) : Int)
      else leNat vch

/-- The last byte, sign bit aside, is zero and not needed to keep the sign bit free. -/
def isNonMinimalNum (vch : Bytes) : Bool :=
  match vch.reverse with
  | [] => false
  | [back] => back &&& 0x7f = 0
  | back :: previous :: _ => back &&& 0x7f = 0 && previous &&& 0x80 = 0

/-- `CScriptNum(vch, fRequireMinimal, nMaxNumSize)`. The exceptions of the constructor are
caught by `EvalScript` and reported as an unknown error. -/
def scriptNum (vch : Bytes) (fRequireMinimal : Bool) (nMaxNumSize : Nat) :
    Except ScriptError Int := do
  rejectIf (nMaxNumSize < vch.length) .unknownError
  rejectIf (fRequireMinimal ∧ isNonMinimalNum vch) .unknownError
  return scriptNumSetVch vch

def defaultMaxNumSize : Nat := 4

/-- `CScriptNum::getint`, which clamps to the range of `int`. -/
def scriptNumGetInt (value : Int) : Int :=
  max (-2147483648) (min value 2147483647)

/-- Any nonzero byte makes a value true, except a lone sign bit in the last byte. -/
def castToBool : Bytes → Bool
  | [] => false
  | [back] => back ≠ 0 && back ≠ 0x80
  | byte :: rest => byte ≠ 0 || castToBool rest

def vchTrue : Bytes := [1]

def vchFalse : Bytes := []

def vchOfBool (b : Bool) : Bytes :=
  if b then vchTrue else vchFalse

def publicKeySize : Nat := 65
def compressedPublicKeySize : Nat := 33

/-- `CPubKey::GetLen`. -/
def pubKeyGetLen (chHeader : UInt8) : Nat :=
  if chHeader = 2 ∨ chHeader = 3 then compressedPublicKeySize
  else if chHeader = 4 ∨ chHeader = 6 ∨ chHeader = 7 then publicKeySize
  else 0

/-- `CPubKey(vch).IsValid()`: the length is the one the first byte announces. -/
def pubKeyIsValid : Bytes → Bool
  | [] => false
  | chHeader :: rest => pubKeyGetLen chHeader = rest.length + 1

def isCompressedOrUncompressedPubKey (vchPubKey : Bytes) : Bool :=
  if vchPubKey.length < compressedPublicKeySize then false
  else if vchPubKey[0]? = some 0x04 then vchPubKey.length = publicKeySize
  else if vchPubKey[0]? = some 0x02 ∨ vchPubKey[0]? = some 0x03 then
    vchPubKey.length = compressedPublicKeySize
  else false

def isCompressedPubKey (vchPubKey : Bytes) : Bool :=
  vchPubKey.length = compressedPublicKeySize &&
    (vchPubKey[0]? = some 0x02 || vchPubKey[0]? = some 0x03)

/-- The strict DER test on a signature with its hash type byte. Positions past the end are
never reached in the source, because the length tests come first; here they read as zero. -/
def isValidSignatureEncoding (sig : Bytes) : Bool :=
  let byteAt := fun i => sig.getD i 0
  let lenR := (byteAt 3).toNat
  let lenS := (byteAt (5 + lenR)).toNat
  9 ≤ sig.length && sig.length ≤ 73 &&
  byteAt 0 = 0x30 && (byteAt 1).toNat = sig.length - 3 &&
  5 + lenR < sig.length && lenR + lenS + 7 = sig.length &&
  byteAt 2 = 0x02 && lenR ≠ 0 && byteAt 4 &&& 0x80 = 0 &&
  !(1 < lenR && byteAt 4 = 0x00 && byteAt 5 &&& 0x80 = 0) &&
  byteAt (lenR + 4) = 0x02 && lenS ≠ 0 && byteAt (lenR + 6) &&& 0x80 = 0 &&
  !(1 < lenS && byteAt (lenR + 6) = 0x00 && byteAt (lenR + 7) &&& 0x80 = 0)

/-- `vchSig.back() & ~SIGHASH_ANYONECANPAY` is one of `ALL`, `NONE` and `SINGLE`. -/
def isDefinedHashtypeSignature (vchSig : Bytes) : Bool :=
  match vchSig.getLast? with
  | none => false
  | some back =>
      let nHashType := back &&& 0x7f
      1 ≤ nHashType && nHashType ≤ 3

def checkMinimalPush (data : Bytes) (opcode : UInt8) : Bool :=
  match data with
  | [] => opcode = Opcode.op0
  | [byte] =>
      if 1 ≤ byte ∧ byte ≤ 16 then false
      else if byte = 0x81 then false
      else opcode.toNat = 1
  | _ =>
      if data.length ≤ 75 then opcode.toNat = data.length
      else if data.length ≤ 255 then opcode = Opcode.pushData1
      else if data.length ≤ 65535 then opcode = Opcode.pushData2
      else true

end Verium
