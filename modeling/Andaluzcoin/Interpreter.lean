import Andaluzcoin.Outcome
import Andaluzcoin.Script

/-!
# The script interpreter

`EvalScript` of `script/interpreter.cpp` with the encoding checks it calls. Stacks are lists
with the top in front. Hash functions and the low-S test are parameters, and so is the
signature checker, whose cache of an output hash does not show in its answers.
-/

namespace Interpreter

open Transaction Script Outcome CScriptNum

/-- `script_verify_flag_name`. -/
inductive ScriptVerifyFlag where
  | p2sh | strictEnc | derSig | lowS | nullDummy | sigPushOnly | minimalData
  | discourageUpgradableNops | cleanStack | checkLockTimeVerify | checkSequenceVerify | witness
  | discourageUpgradableWitnessProgram | minimalIf | nullFail | witnessPubkeyType
  | constScriptCode | taproot | discourageUpgradableTaprootVersion | discourageOpSuccess
  | discourageUpgradablePubkeyType
  deriving DecidableEq

/-- A set of flags. -/
abbrev ScriptVerifyFlags := ScriptVerifyFlag → Bool

/-- `ScriptError`; an assertion of the source that does not hold is an error as well. -/
inductive ScriptError where
  | unknownError | evalFalse | opReturn | scriptNum
  | scriptSize | pushSize | opCount | stackSize | sigCount | pubkeyCount
  | verify | equalVerify | checkMultisigVerify | checkSigVerify | numEqualVerify
  | badOpcode | disabledOpcode | invalidStackOperation | invalidAltstackOperation
  | unbalancedConditional | negativeLockTime | unsatisfiedLockTime
  | sigHashType | sigDer | minimalData | sigPushOnly | sigHighS | sigNullDummy | pubkeyType
  | cleanStack | minimalIf | sigNullFail
  | discourageUpgradableNops | discourageUpgradableWitnessProgram
  | discourageUpgradableTaprootVersion | discourageOpSuccess | discourageUpgradablePubkeyType
  | witnessProgramWrongLength | witnessProgramWitnessEmpty | witnessProgramMismatch
  | witnessMalleated | witnessMalleatedP2sh | witnessUnexpected | witnessPubkeyType
  | schnorrSigSize | schnorrSigHashType | schnorrSig | taprootWrongControlSize
  | tapscriptValidationWeight | tapscriptCheckMultisig | tapscriptMinimalIf | tapscriptEmptyPubkey
  | opCodeSeparator | sigFindAndDelete
  | assertion
  deriving DecidableEq

inductive SigVersion where
  | base | witnessV0 | taproot | tapscript
  deriving DecidableEq

/-- `ScriptExecutionData`; a field that is not initialized is `none`. -/
structure ScriptExecutionData where
  tapleafHash : Option Uint256
  codeSeparatorPos : Option ℕ
  annexHash : Option (Option Uint256)
  validationWeightLeft : Option Int
  deriving DecidableEq

def ScriptExecutionData.new : ScriptExecutionData := ⟨none, none, none, none⟩

/-- `BaseSignatureChecker`. -/
structure SignatureChecker where
  checkECDSASignature : Bytes → Bytes → CScript → SigVersion → Bool
  checkSchnorrSignature : Bytes → Bytes → SigVersion → ScriptExecutionData → Except ScriptError Unit
  checkLockTime : Int → Bool
  checkSequence : Int → Bool

/-- The methods of the base class, which accept nothing. -/
def SignatureChecker.base : SignatureChecker where
  checkECDSASignature _ _ _ _ := false
  checkSchnorrSignature _ _ _ _ := .error .unknownError
  checkLockTime _ := false
  checkSequence _ := false

/-- The hash functions of `crypto/` and `CPubKey::CheckLowS`. -/
structure Crypto where
  ripemd160 : Bytes → Bytes
  sha1 : Bytes → Bytes
  sha256 : Bytes → Bytes
  checkLowS : Bytes → Bool

def Crypto.hash160 (crypto : Crypto) (data : Bytes) : Bytes := crypto.ripemd160 (crypto.sha256 data)
def Crypto.hash256 (crypto : Crypto) (data : Bytes) : Bytes := crypto.sha256 (crypto.sha256 data)

/-- Some byte is not zero, the last one counting without its sign bit. -/
def castToBool : Bytes → Bool
  | [] => false
  | [b] => b ≠ 0 && b ≠ 0x80
  | b :: rest => b ≠ 0 || castToBool rest

def vchFalse : Bytes := []
def vchTrue : Bytes := [1]
def vchBool (value : Bool) : Bytes := if value then vchTrue else vchFalse

def isCompressedOrUncompressedPubKey (vchPubKey : Bytes) : Bool :=
  if vchPubKey.length < 33 then false
  else if vchPubKey.getD 0 0 = 0x04 then vchPubKey.length == 65
  else if vchPubKey.getD 0 0 = 0x02 || vchPubKey.getD 0 0 = 0x03 then vchPubKey.length == 33
  else false

def isCompressedPubKey (vchPubKey : Bytes) : Bool :=
  vchPubKey.length == 33 && (vchPubKey.getD 0 0 == 0x02 || vchPubKey.getD 0 0 == 0x03)

/-- The DER encoding of two positive numbers in the shortest form, and a hash type. -/
def isValidSignatureEncoding (sig : Bytes) : Bool :=
  let at_ (i : ℕ) : UInt8 := sig.getD i 0
  let lenR := (at_ 3).toNat
  let lenS := (at_ (5 + lenR)).toNat
  if sig.length < 9 then false
  else if sig.length > 73 then false
  else if at_ 0 ≠ 0x30 then false
  else if (at_ 1).toNat ≠ sig.length - 3 then false
  else if 5 + lenR ≥ sig.length then false
  else if lenR + lenS + 7 ≠ sig.length then false
  else if at_ 2 ≠ 0x02 then false
  else if lenR = 0 then false
  else if at_ 4 &&& 0x80 ≠ 0 then false
  else if lenR > 1 && at_ 4 == 0x00 && at_ 5 &&& 0x80 == 0 then false
  else if at_ (lenR + 4) ≠ 0x02 then false
  else if lenS = 0 then false
  else if at_ (lenR + 6) &&& 0x80 ≠ 0 then false
  else if lenS > 1 && at_ (lenR + 6) == 0x00 && at_ (lenR + 7) &&& 0x80 == 0 then false
  else true

/-- One of `SIGHASH_ALL`, `SIGHASH_NONE` and `SIGHASH_SINGLE`, with or without
`SIGHASH_ANYONECANPAY`. -/
def isDefinedHashtypeSignature (vchSig : Bytes) : Bool :=
  match vchSig.getLast? with
  | none => false
  | some nHashType => 1 ≤ nHashType &&& 0x7f && nHashType &&& 0x7f ≤ 3

/-- Remove a pattern from the front as often as it is there. -/
def stripAll (b : Bytes) : ℕ → CScript → ℕ × CScript
  | 0, rest => (0, rest)
  | fuel + 1, rest =>
    if rest.take b.length = b then
      let later := stripAll b fuel (rest.drop b.length)
      (later.1 + 1, later.2)
    else (0, rest)

/-- The loop of `FindAndDelete`, which looks for the pattern in front of every opcode. -/
def deleteFrom (b : Bytes) : ℕ → CScript → ℕ × CScript
  | 0, rest => (0, rest)
  | fuel + 1, rest =>
    let stripped := stripAll b rest.length rest
    match getOp stripped.2 with
    | none => stripped
    | some (_, _, later) =>
      let deleted := deleteFrom b fuel later
      (stripped.1 + deleted.1,
        stripped.2.take (stripped.2.length - later.length) ++ deleted.2)

/-- `FindAndDelete`: how often the pattern was found, and the script without it. -/
def findAndDelete (script : CScript) (b : Bytes) : ℕ × CScript :=
  if b.isEmpty then (0, script) else deleteFrom b (script.length + 1) script

/-- The stack of conditions, of which only the size and the first false one are kept. -/
structure ConditionStack where
  stackSize : ℕ
  firstFalsePos : Option ℕ
  deriving DecidableEq

namespace ConditionStack

def new : ConditionStack := ⟨0, none⟩

def isEmpty (c : ConditionStack) : Bool := c.stackSize == 0

def allTrue (c : ConditionStack) : Bool := c.firstFalsePos.isNone

def pushBack (c : ConditionStack) (f : Bool) : ConditionStack :=
  ⟨c.stackSize + 1, if c.firstFalsePos.isNone && !f then some c.stackSize else c.firstFalsePos⟩

def popBack (c : ConditionStack) : ConditionStack :=
  ⟨c.stackSize - 1, if c.firstFalsePos = some (c.stackSize - 1) then none else c.firstFalsePos⟩

def toggleTop (c : ConditionStack) : ConditionStack :=
  match c.firstFalsePos with
  | none => ⟨c.stackSize, some (c.stackSize - 1)⟩
  | some pos => ⟨c.stackSize, if pos = c.stackSize - 1 then none else some pos⟩

end ConditionStack

/-- The variables of `EvalScript`. The script from the last code separator on stands for
`pbegincodehash`. -/
structure ScriptState where
  stack : List Bytes
  altstack : List Bytes
  vfExec : ConditionStack
  nOpCount : ℕ
  codeHash : CScript
  opcodePos : ℕ
  execdata : ScriptExecutionData
  deriving DecidableEq

abbrev Eval (α : Type) := Except ScriptError α

def ScriptState.push (s : ScriptState) (vch : Bytes) : ScriptState := { s with stack := vch :: s.stack }

def ScriptState.withStack (s : ScriptState) (stack : List Bytes) : ScriptState := { s with stack := stack }

section
variable (crypto : Crypto) (flags : ScriptVerifyFlags)

def checkSignatureEncoding (vchSig : Bytes) : Eval Unit :=
  if vchSig.isEmpty then .ok ()
  else do
    failIf ((flags .derSig || flags .lowS || flags .strictEnc) && !isValidSignatureEncoding vchSig)
      .sigDer
    failIf (flags .lowS && !crypto.checkLowS vchSig.dropLast) .sigHighS
    failIf (flags .strictEnc && !isDefinedHashtypeSignature vchSig) .sigHashType

def checkPubKeyEncoding (vchPubKey : Bytes) (sigversion : SigVersion) : Eval Unit := do
  failIf (flags .strictEnc && !isCompressedOrUncompressedPubKey vchPubKey) .pubkeyType
  failIf (flags .witnessPubkeyType && sigversion == .witnessV0 && !isCompressedPubKey vchPubKey)
    .witnessPubkeyType

/-- The constructor of `CScriptNum` from a stack element. -/
def scriptNum (vch : Bytes) (nMaxNumSize : ℕ) : Eval Int := do
  failIf (vch.length > nMaxNumSize) .scriptNum
  failIf (flags .minimalData && !isMinimal vch) .scriptNum
  .ok (decode vch)

/-- Drop signatures from the script code of a script that is not segregated. -/
def dropSignatures (sigversion : SigVersion) : List Bytes → CScript → Eval CScript
  | [], scriptCode => .ok scriptCode
  | vchSig :: rest, scriptCode =>
    if sigversion = .base then do
      let deleted := findAndDelete scriptCode (pushData vchSig)
      failIf (deleted.1 > 0 && flags .constScriptCode) .sigFindAndDelete
      dropSignatures sigversion rest deleted.2
    else dropSignatures sigversion rest scriptCode

end

variable (crypto : Crypto) (checker : SignatureChecker) (sigversion : SigVersion)
  (flags : ScriptVerifyFlags)

def evalChecksigPreTapscript (vchSig vchPubKey : Bytes) (codeHash : CScript) : Eval Bool := do
  let scriptCode ← dropSignatures flags sigversion [vchSig] codeHash
  checkSignatureEncoding crypto flags vchSig
  checkPubKeyEncoding flags vchPubKey sigversion
  let fSuccess := checker.checkECDSASignature vchSig vchPubKey scriptCode sigversion
  failIf (!fSuccess && flags .nullFail && !vchSig.isEmpty) .sigNullFail
  .ok fSuccess

/-- Take the weight of a passing signature, which is not empty, from what is left. -/
def spendWeight (sig : Bytes) (execdata : ScriptExecutionData) : Eval ScriptExecutionData :=
  if sig.isEmpty then .ok execdata
  else
    match execdata.validationWeightLeft with
    | none => .error .assertion
    | some left =>
      let left := left - validationWeightPerSigopPassed
      if left < 0 then .error .tapscriptValidationWeight
      else .ok { execdata with validationWeightLeft := some left }

/-- The check of a signature by the kind of its key. -/
def checkTapscriptKey (sig pubkey : Bytes) (execdata : ScriptExecutionData) : Eval Unit :=
  if pubkey.isEmpty then .error .tapscriptEmptyPubkey
  else if pubkey.length = 32 then
    if sig.isEmpty then .ok () else checker.checkSchnorrSignature sig pubkey sigversion execdata
  else failIf (flags .discourageUpgradablePubkeyType) .discourageUpgradablePubkeyType

def evalChecksigTapscript (sig pubkey : Bytes) (execdata : ScriptExecutionData) :
  Eval (Bool × ScriptExecutionData) := do
  let execdata ← spendWeight sig execdata
  checkTapscriptKey checker sigversion flags sig pubkey execdata
  .ok (!sig.isEmpty, execdata)

/-- `EvalChecksig`: whether the signature passes, unless the script fails entirely. -/
def evalChecksig (sig pubkey : Bytes) (s : ScriptState) : Eval (Bool × ScriptState) :=
  match sigversion with
  | .base | .witnessV0 => do
    let success ← evalChecksigPreTapscript crypto checker sigversion flags sig pubkey s.codeHash
    .ok (success, s)
  | .tapscript => do
    let (success, execdata) ← evalChecksigTapscript checker sigversion flags sig pubkey s.execdata
    .ok (success, { s with execdata := execdata })
  | .taproot => .error .assertion

/-- The loop of `OP_CHECKMULTISIG`, over the signatures and keys that are left. -/
def matchSignatures (scriptCode : CScript) : List Bytes → List Bytes → Eval Bool
  | [], _ => .ok true
  | _ :: _, [] => .ok false
  | vchSig :: sigs, vchPubKey :: keys => do
    checkSignatureEncoding crypto flags vchSig
    checkPubKeyEncoding flags vchPubKey sigversion
    let left := if checker.checkECDSASignature vchSig vchPubKey scriptCode sigversion
      then sigs else vchSig :: sigs
    if left.length > keys.length then .ok false else matchSignatures scriptCode left keys

/-- A result that stays on the stack, or that the `VERIFY` form of the opcode demands. -/
def leaveResult (s : ScriptState) (stack : List Bytes) (value verify : Bool) (e : ScriptError) :
  Eval ScriptState :=
  if verify then if value then .ok (s.withStack stack) else .error e
  else .ok (s.withStack (vchBool value :: stack))

def execCheckLockTimeVerify (s : ScriptState) : Eval ScriptState :=
  if flags .checkLockTimeVerify then
    match s.stack with
    | [] => .error .invalidStackOperation
    | top :: _ => do
      let nLockTime ← scriptNum flags top 5
      failIf (nLockTime < 0) .negativeLockTime
      failIf (!checker.checkLockTime nLockTime) .unsatisfiedLockTime
      .ok s
  else .ok s

/-- `SEQUENCE_LOCKTIME_DISABLE_FLAG` is set in a number that is not negative. -/
def isSequenceDisabled (nSequence : Int) : Bool := nSequence.toNat.testBit 31

def execCheckSequenceVerify (s : ScriptState) : Eval ScriptState :=
  if flags .checkSequenceVerify then
    match s.stack with
    | [] => .error .invalidStackOperation
    | top :: _ => do
      let nSequence ← scriptNum flags top 5
      failIf (nSequence < 0) .negativeLockTime
      failIf (!isSequenceDisabled nSequence && !checker.checkSequence nSequence)
        .unsatisfiedLockTime
      .ok s
  else .ok s

/-- The argument of `OP_IF` must be empty or one where that is required. -/
def checkMinimalIf (vch : Bytes) : Eval Unit := do
  let minimal := vch == [] || vch == [1]
  failIf (sigversion == .tapscript && !minimal) .tapscriptMinimalIf
  failIf (sigversion == .witnessV0 && flags .minimalIf && !minimal) .minimalIf

def execIf (negated : Bool) (s : ScriptState) : Eval ScriptState :=
  if s.vfExec.allTrue then
    match s.stack with
    | [] => .error .invalidStackOperation
    | vch :: rest => do
      checkMinimalIf sigversion flags vch
      .ok { s with stack := rest, vfExec := s.vfExec.pushBack (castToBool vch != negated) }
  else .ok { s with vfExec := s.vfExec.pushBack false }

/-- The opcodes that only rearrange the stack. -/
def stackOp (op : Opcode) (stack : List Bytes) : Option (List Bytes) :=
  match op, stack with
  | .op2Drop, _ :: _ :: rest => some rest
  | .op2Dup, x2 :: x1 :: rest => some (x2 :: x1 :: x2 :: x1 :: rest)
  | .op3Dup, x3 :: x2 :: x1 :: rest => some (x3 :: x2 :: x1 :: x3 :: x2 :: x1 :: rest)
  | .op2Over, x4 :: x3 :: x2 :: x1 :: rest => some (x2 :: x1 :: x4 :: x3 :: x2 :: x1 :: rest)
  | .op2Rot, x6 :: x5 :: x4 :: x3 :: x2 :: x1 :: rest =>
    some (x2 :: x1 :: x6 :: x5 :: x4 :: x3 :: rest)
  | .op2Swap, x4 :: x3 :: x2 :: x1 :: rest => some (x2 :: x1 :: x4 :: x3 :: rest)
  | .opIfDup, x :: rest => some (if castToBool x then x :: x :: rest else x :: rest)
  | .opDepth, stack => some (serialize stack.length :: stack)
  | .opDrop, _ :: rest => some rest
  | .opDup, x :: rest => some (x :: x :: rest)
  | .opNip, x2 :: _ :: rest => some (x2 :: rest)
  | .opOver, x2 :: x1 :: rest => some (x1 :: x2 :: x1 :: rest)
  | .opRot, x3 :: x2 :: x1 :: rest => some (x1 :: x3 :: x2 :: rest)
  | .opSwap, x2 :: x1 :: rest => some (x1 :: x2 :: rest)
  | .opTuck, x2 :: x1 :: rest => some (x2 :: x1 :: x2 :: rest)
  | .opSize, x :: rest => some (serialize x.length :: x :: rest)
  | _, _ => none

def execStackOp (op : Opcode) (s : ScriptState) : Eval ScriptState :=
  match stackOp op s.stack with
  | none => .error .invalidStackOperation
  | some stack => .ok (s.withStack stack)

def execPickRoll (roll : Bool) (s : ScriptState) : Eval ScriptState :=
  match s.stack with
  | top :: x :: rest => do
    let stack := x :: rest
    let n := getint (← scriptNum flags top nDefaultMaxNumSize)
    failIf (n < 0 || n ≥ stack.length) .invalidStackOperation
    let picked := stack.getD n.toNat []
    .ok (s.withStack (picked :: if roll then stack.eraseIdx n.toNat else stack))
  | _ => .error .invalidStackOperation

def boolNum (value : Bool) : Int := if value then 1 else 0

def unaryOp (op : Opcode) (bn : Int) : Int :=
  match op with
  | .op1Add => bn + 1
  | .op1Sub => bn - 1
  | .opNegate => -bn
  | .opAbs => if bn < 0 then -bn else bn
  | .opNot => boolNum (bn == 0)
  | _ => boolNum (bn != 0)

def execUnary (op : Opcode) (s : ScriptState) : Eval ScriptState :=
  match s.stack with
  | [] => .error .invalidStackOperation
  | top :: rest => do
    let bn ← scriptNum flags top nDefaultMaxNumSize
    .ok (s.withStack (serialize (unaryOp op bn) :: rest))

def binaryOp (op : Opcode) (bn1 bn2 : Int) : Int :=
  match op with
  | .opAdd => bn1 + bn2
  | .opSub => bn1 - bn2
  | .opBoolAnd => boolNum (bn1 != 0 && bn2 != 0)
  | .opBoolOr => boolNum (bn1 != 0 || bn2 != 0)
  | .opNumEqual | .opNumEqualVerify => boolNum (bn1 == bn2)
  | .opNumNotEqual => boolNum (bn1 != bn2)
  | .opLessThan => boolNum (bn1 < bn2)
  | .opGreaterThan => boolNum (bn1 > bn2)
  | .opLessThanOrEqual => boolNum (bn1 ≤ bn2)
  | .opGreaterThanOrEqual => boolNum (bn1 ≥ bn2)
  | .opMin => if bn1 < bn2 then bn1 else bn2
  | _ => if bn1 > bn2 then bn1 else bn2

def execBinary (op : Opcode) (s : ScriptState) : Eval ScriptState :=
  match s.stack with
  | x2 :: x1 :: rest => do
    let bn1 ← scriptNum flags x1 nDefaultMaxNumSize
    let bn2 ← scriptNum flags x2 nDefaultMaxNumSize
    let result := serialize (binaryOp op bn1 bn2)
    if op = .opNumEqualVerify then
      if castToBool result then .ok (s.withStack rest) else .error .numEqualVerify
    else .ok (s.withStack (result :: rest))
  | _ => .error .invalidStackOperation

def execWithin (s : ScriptState) : Eval ScriptState :=
  match s.stack with
  | x3 :: x2 :: x1 :: rest => do
    let bn1 ← scriptNum flags x1 nDefaultMaxNumSize
    let bn2 ← scriptNum flags x2 nDefaultMaxNumSize
    let bn3 ← scriptNum flags x3 nDefaultMaxNumSize
    .ok (s.withStack (vchBool (bn2 ≤ bn1 && bn1 < bn3) :: rest))
  | _ => .error .invalidStackOperation

def execEqual (verify : Bool) (s : ScriptState) : Eval ScriptState :=
  match s.stack with
  | x2 :: x1 :: rest => leaveResult s rest (x1 == x2) verify .equalVerify
  | _ => .error .invalidStackOperation

def hashOp (op : Opcode) (vch : Bytes) : Bytes :=
  match op with
  | .opRipemd160 => crypto.ripemd160 vch
  | .opSha1 => crypto.sha1 vch
  | .opSha256 => crypto.sha256 vch
  | .opHash160 => crypto.hash160 vch
  | _ => crypto.hash256 vch

def execHash (op : Opcode) (s : ScriptState) : Eval ScriptState :=
  match s.stack with
  | [] => .error .invalidStackOperation
  | vch :: rest => .ok (s.withStack (hashOp crypto op vch :: rest))

def execCheckSig (verify : Bool) (s : ScriptState) : Eval ScriptState :=
  match s.stack with
  | vchPubKey :: vchSig :: rest => do
    let (fSuccess, s) ← evalChecksig crypto checker sigversion flags vchSig vchPubKey s
    leaveResult s rest fSuccess verify .checkSigVerify
  | _ => .error .invalidStackOperation

def execCheckSigAdd (s : ScriptState) : Eval ScriptState :=
  if sigversion = .base ∨ sigversion = .witnessV0 then .error .badOpcode
  else
    match s.stack with
    | pubkey :: num :: sig :: rest => do
      let num ← scriptNum flags num nDefaultMaxNumSize
      let (success, s) ← evalChecksig crypto checker sigversion flags sig pubkey s
      .ok (s.withStack (serialize (num + boolNum success) :: rest))
    | _ => .error .invalidStackOperation

/-- The keys, the signatures and what lies below them, with both counts checked. -/
def readMultisig (s : ScriptState) : Eval (List Bytes × List Bytes × List Bytes × ScriptState) :=
  match s.stack with
  | [] => .error .invalidStackOperation
  | top :: below => do
    let nKeysCount := getint (← scriptNum flags top nDefaultMaxNumSize)
    failIf (nKeysCount < 0 || nKeysCount > maxPubkeysPerMultisig) .pubkeyCount
    let nKeys := nKeysCount.toNat
    let s := { s with nOpCount := s.nOpCount + nKeys }
    failIf (s.nOpCount > maxOpsPerScript) .opCount
    let keys := below.take nKeys
    match below.drop nKeys with
    | [] => .error .invalidStackOperation
    | count :: below => do
      let nSigsCount := getint (← scriptNum flags count nDefaultMaxNumSize)
      failIf (nSigsCount < 0 || nSigsCount > nKeysCount) .sigCount
      let nSigs := nSigsCount.toNat
      failIf (below.length < nSigs + 1) .invalidStackOperation
      .ok (keys, below.take nSigs, below.drop nSigs, s)

def execCheckMultisig (verify : Bool) (s : ScriptState) : Eval ScriptState :=
  if sigversion = .tapscript then .error .tapscriptCheckMultisig
  else do
    let (keys, sigs, below, s) ← readMultisig flags s
    let scriptCode ← dropSignatures flags sigversion sigs s.codeHash
    let fSuccess ← matchSignatures crypto checker sigversion flags scriptCode sigs keys
    failIf (!fSuccess && flags .nullFail && sigs.any (!·.isEmpty)) .sigNullFail
    match below with
    | [] => .error .invalidStackOperation
    | dummy :: rest => do
      failIf (flags .nullDummy && !dummy.isEmpty) .sigNullDummy
      leaveResult s rest fSuccess verify .checkMultisigVerify

/-- The `switch` of `EvalScript`; `rest` is the script after the opcode. -/
def execOp (op : Opcode) (rest : CScript) (s : ScriptState) : Eval ScriptState :=
  match op with
  | .op1Negate => .ok (s.push (serialize (-1)))
  | .opN n => .ok (s.push (serialize (n + 1 : ℕ)))
  | .opNop => .ok s
  | .opCheckLockTimeVerify => execCheckLockTimeVerify checker flags s
  | .opCheckSequenceVerify => execCheckSequenceVerify checker flags s
  | .opNop1 | .opNop4 | .opNop5 | .opNop6 | .opNop7 | .opNop8 | .opNop9 | .opNop10 => do
    failIf (flags .discourageUpgradableNops) .discourageUpgradableNops
    .ok s
  | .opIf => execIf sigversion flags false s
  | .opNotIf => execIf sigversion flags true s
  | .opElse =>
    if s.vfExec.isEmpty then .error .unbalancedConditional
    else .ok { s with vfExec := s.vfExec.toggleTop }
  | .opEndIf =>
    if s.vfExec.isEmpty then .error .unbalancedConditional
    else .ok { s with vfExec := s.vfExec.popBack }
  | .opVerify =>
    match s.stack with
    | [] => .error .invalidStackOperation
    | top :: below => if castToBool top then .ok (s.withStack below) else .error .verify
  | .opReturn => .error .opReturn
  | .opToAltStack =>
    match s.stack with
    | [] => .error .invalidStackOperation
    | top :: below => .ok { s with stack := below, altstack := top :: s.altstack }
  | .opFromAltStack =>
    match s.altstack with
    | [] => .error .invalidAltstackOperation
    | top :: below => .ok { s with stack := top :: s.stack, altstack := below }
  | .op2Drop | .op2Dup | .op3Dup | .op2Over | .op2Rot | .op2Swap | .opIfDup | .opDepth | .opDrop
  | .opDup | .opNip | .opOver | .opRot | .opSwap | .opTuck | .opSize => execStackOp op s
  | .opPick => execPickRoll flags false s
  | .opRoll => execPickRoll flags true s
  | .opEqual => execEqual false s
  | .opEqualVerify => execEqual true s
  | .op1Add | .op1Sub | .opNegate | .opAbs | .opNot | .op0NotEqual => execUnary flags op s
  | .opAdd | .opSub | .opBoolAnd | .opBoolOr | .opNumEqual | .opNumEqualVerify | .opNumNotEqual
  | .opLessThan | .opGreaterThan | .opLessThanOrEqual | .opGreaterThanOrEqual | .opMin | .opMax =>
    execBinary flags op s
  | .opWithin => execWithin flags s
  | .opRipemd160 | .opSha1 | .opSha256 | .opHash160 | .opHash256 => execHash crypto op s
  | .opCodeSeparator =>
    .ok { s with
      codeHash := rest
      execdata := { s.execdata with codeSeparatorPos := some s.opcodePos } }
  | .opCheckSig => execCheckSig crypto checker sigversion flags false s
  | .opCheckSigVerify => execCheckSig crypto checker sigversion flags true s
  | .opCheckSigAdd => execCheckSigAdd crypto checker sigversion flags s
  | .opCheckMultisig => execCheckMultisig crypto checker sigversion flags false s
  | .opCheckMultisigVerify => execCheckMultisig crypto checker sigversion flags true s
  | _ => .error .badOpcode

/-- Count an opcode where the count is limited. -/
def countOp (op : Opcode) (s : ScriptState) : Eval ScriptState :=
  if (sigversion = .base ∨ sigversion = .witnessV0) ∧ op.counts then
    if s.nOpCount + 1 > maxOpsPerScript then .error .opCount
    else .ok { s with nOpCount := s.nOpCount + 1 }
  else .ok s

/-- What an opcode does: push its data, run it, or nothing in a branch that is not taken. -/
def dispatch (op : Opcode) (vchPushValue : Bytes) (rest : CScript) (s : ScriptState) :
  Eval ScriptState :=
  if s.vfExec.allTrue && op.isPush then do
    failIf (flags .minimalData && !checkMinimalPush vchPushValue op) .minimalData
    .ok (s.push vchPushValue)
  else if s.vfExec.allTrue || (Opcode.opIf.code ≤ op.code && op.code ≤ Opcode.opEndIf.code) then
    execOp crypto checker sigversion flags op rest s
  else .ok s

/-- The body of the loop of `EvalScript`. -/
def evalOp (op : Opcode) (vchPushValue : Bytes) (rest : CScript) (s : ScriptState) :
  Eval ScriptState := do
  failIf (vchPushValue.length > maxScriptElementSize) .pushSize
  let s ← countOp sigversion op s
  failIf op.isDisabled .disabledOpcode
  failIf (op == .opCodeSeparator && sigversion == .base && flags .constScriptCode) .opCodeSeparator
  let s ← dispatch crypto checker sigversion flags op vchPushValue rest s
  failIf (s.stack.length + s.altstack.length > maxStackSize) .stackSize
  .ok { s with opcodePos := s.opcodePos + 1 }

/-- The loop of `EvalScript`; every round reads at least one byte. -/
def evalLoop : ℕ → CScript → ScriptState → Eval ScriptState
  | _, [], s => .ok s
  | 0, _ :: _, _ => .error .assertion
  | fuel + 1, b :: bytes, s =>
    match getOp (b :: bytes) with
    | none => .error .badOpcode
    | some (op, vchPushValue, rest) => do
      let s ← evalOp crypto checker sigversion flags op vchPushValue rest s
      evalLoop fuel rest s

/-- `EvalScript`: the stack and the execution data at the end. -/
def evalScript (stack : List Bytes) (script : CScript) (execdata : ScriptExecutionData) :
  Eval (List Bytes × ScriptExecutionData) := do
  failIf (sigversion == .taproot) .assertion
  failIf ((sigversion == .base || sigversion == .witnessV0) && script.length > maxScriptSize)
    .scriptSize
  let s ← evalLoop crypto checker sigversion flags script.length script
    ⟨stack, [], .new, 0, script, 0, { execdata with codeSeparatorPos := some 0xffffffff }⟩
  failIf (!s.vfExec.isEmpty) .unbalancedConditional
  .ok (s.stack, s.execdata)

end Interpreter
