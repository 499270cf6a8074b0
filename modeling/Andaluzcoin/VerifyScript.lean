import Andaluzcoin.Interpreter
import Andaluzcoin.TxVerify

/-!
# Verifying a spend

`ExecuteWitnessScript`, `VerifyWitnessProgram` and `VerifyScript` of
`script/interpreter.cpp`. The hashes of taproot leaves and branches and the check of the
tweaked key are parameters.
-/

namespace VerifyScript

open Transaction Script Outcome Interpreter

def witnessV0ScriptHashSize : ℕ := 32
def witnessV0KeyHashSize : ℕ := 20
def witnessV1TaprootSize : ℕ := 32
def taprootLeafMask : UInt8 := 0xfe
def taprootLeafTapscript : UInt8 := 0xc0
def taprootControlBaseSize : ℕ := 33
def taprootControlNodeSize : ℕ := 32
def taprootControlMaxNodeCount : ℕ := 128
def taprootControlMaxSize : ℕ :=
  taprootControlBaseSize + taprootControlNodeSize * taprootControlMaxNodeCount

/-- The tagged hashes of taproot and `XOnlyPubKey::CheckTapTweak`, given the program, the
internal key, the Merkle root and the parity. -/
structure TaprootCrypto extends Crypto where
  annexHash : Bytes → Uint256
  computeTapleafHash : UInt8 → Bytes → Uint256
  computeTapbranchHash : Uint256 → Bytes → Uint256
  checkTapTweak : Bytes → Bytes → Uint256 → Bool → Bool

/-- The loop of `ComputeTaprootMerkleRoot` over the nodes of the path. -/
def merkleRootFrom (crypto : TaprootCrypto) : ℕ → Uint256 → Bytes → Uint256
  | 0, k, _ => k
  | nodes + 1, k, path =>
    merkleRootFrom crypto nodes
      (crypto.computeTapbranchHash k (path.take taprootControlNodeSize))
      (path.drop taprootControlNodeSize)

def computeTaprootMerkleRoot (crypto : TaprootCrypto) (control : Bytes) (tapleafHash : Uint256) :
  Uint256 :=
  merkleRootFrom crypto ((control.length - taprootControlBaseSize) / taprootControlNodeSize)
    tapleafHash (control.drop taprootControlBaseSize)

def verifyTaprootCommitment (crypto : TaprootCrypto) (control program : Bytes)
  (tapleafHash : Uint256) : Bool :=
  crypto.checkTapTweak program ((control.drop 1).take 32)
    (computeTaprootMerkleRoot crypto control tapleafHash) (control.getD 0 0 &&& 1 == 1)

/-- What the scan for `OP_SUCCESSx` finds before the script is run. -/
inductive SuccessScan where
  | notFound
  | found
  | badOpcode
  deriving DecidableEq

def scanOpSuccess : ℕ → CScript → SuccessScan
  | _, [] => .notFound
  | 0, _ :: _ => .badOpcode
  | fuel + 1, b :: bytes =>
    match getOp (b :: bytes) with
    | none => .badOpcode
    | some (op, _, rest) => if op.isOpSuccess then .found else scanOpSuccess fuel rest

/-- `GetSerializeSize(witness.stack)`. -/
def serializeSizeStack (stack : List Bytes) : ℕ :=
  TxVerify.getSizeOfCompactSize stack.length + (stack.map TxVerify.serializeSizeScript).sum

variable (crypto : TaprootCrypto) (checker : SignatureChecker) (flags : ScriptVerifyFlags)

/-- Run a script of a witness, which has to leave one true element. -/
def runWitnessScript (stack : List Bytes) (execScript : CScript) (sigversion : SigVersion)
  (execdata : ScriptExecutionData) : Eval Unit := do
  failIf (stack.any fun elem => elem.length > maxScriptElementSize) .pushSize
  let (stack, _) ← evalScript crypto.toCrypto checker sigversion flags stack execScript execdata
  match stack with
  | [top] => failIf (!castToBool top) .evalFalse
  | _ => .error .cleanStack

def executeWitnessScript (stack : List Bytes) (execScript : CScript) (sigversion : SigVersion)
  (execdata : ScriptExecutionData) : Eval Unit :=
  if sigversion = .tapscript then
    match scanOpSuccess execScript.length execScript with
    | .badOpcode => .error .badOpcode
    | .found => failIf (flags .discourageOpSuccess) .discourageOpSuccess
    | .notFound => do
      failIf (stack.length > maxStackSize) .stackSize
      runWitnessScript crypto checker flags stack execScript sigversion execdata
  else runWitnessScript crypto checker flags stack execScript sigversion execdata

/-- The script that a key hash stands for. -/
def payToKeyHashScript (program : Bytes) : CScript :=
  [Opcode.opDup.toByte, Opcode.opHash160.toByte] ++ pushData program
    ++ [Opcode.opEqualVerify.toByte, Opcode.opCheckSig.toByte]

/-- The part of a taproot spend by script. The stack has its top in front. -/
def verifyTaprootScript (program : Bytes) (witness : List Bytes) (stack : List Bytes)
  (execdata : ScriptExecutionData) : Eval Unit :=
  match stack with
  | control :: script :: stack =>
    if control.length < taprootControlBaseSize || control.length > taprootControlMaxSize
        || (control.length - taprootControlBaseSize) % taprootControlNodeSize ≠ 0 then
      .error .taprootWrongControlSize
    else
      let leafVersion := control.getD 0 0 &&& taprootLeafMask
      let tapleafHash := crypto.computeTapleafHash leafVersion script
      if !verifyTaprootCommitment crypto control program tapleafHash then
        .error .witnessProgramMismatch
      else if leafVersion = taprootLeafTapscript then
        executeWitnessScript crypto checker flags stack script .tapscript
          { execdata with
            tapleafHash := some tapleafHash
            validationWeightLeft := some (serializeSizeStack witness + validationWeightOffset) }
      else failIf (flags .discourageUpgradableTaprootVersion) .discourageUpgradableTaprootVersion
  | _ => .error .assertion

/-- Taproot, with the optional annex dropped first. -/
def verifyTaproot (program : Bytes) (witness : List Bytes) : Eval Unit :=
  match witness.reverse with
  | [] => .error .witnessProgramWitnessEmpty
  | last :: below =>
    let annex := !below.isEmpty && last.head? == some annexTag
    let stack := if annex then below else last :: below
    let execdata := { ScriptExecutionData.new with
      annexHash := some (if annex then some (crypto.annexHash last) else none) }
    match stack with
    | [sig] => checker.checkSchnorrSignature sig program .taproot execdata
    | stack => verifyTaprootScript crypto checker flags program witness stack execdata

/-- A witness is given as in the transaction, with the top of the stack at its end. -/
def verifyWitnessProgram (witness : List Bytes) (witversion : ℕ) (program : Bytes)
  (isP2sh : Bool) : Eval Unit :=
  if witversion = 0 then
    if program.length = witnessV0ScriptHashSize then
      match witness.reverse with
      | [] => .error .witnessProgramWitnessEmpty
      | script :: stack =>
        if crypto.sha256 script ≠ program then .error .witnessProgramMismatch
        else executeWitnessScript crypto checker flags stack script .witnessV0 .new
    else if program.length = witnessV0KeyHashSize then
      if witness.length ≠ 2 then .error .witnessProgramMismatch
      else executeWitnessScript crypto checker flags witness.reverse (payToKeyHashScript program)
        .witnessV0 .new
    else .error .witnessProgramWrongLength
  else if witversion = 1 ∧ program.length = witnessV1TaprootSize ∧ isP2sh = false then
    if flags .taproot then verifyTaproot crypto checker flags program witness else .ok ()
  else if !isP2sh && isPayToAnchor witversion program then .ok ()
  else failIf (flags .discourageUpgradableWitnessProgram) .discourageUpgradableWitnessProgram

/-- `EvalScript` of a bare script with fresh execution data. -/
def evalBase (stack : List Bytes) (script : CScript) : Eval (List Bytes) :=
  (evalScript crypto.toCrypto checker .base flags stack script .new).map Prod.fst

def requireTrue (stack : List Bytes) : Eval Unit :=
  match stack with
  | [] => .error .evalFalse
  | top :: _ => failIf (!castToBool top) .evalFalse

/-- What the witness program of a script, if it has one and witnesses count, does to the stack,
and whether there was one. -/
def verifyProgramOf (scriptSig expected script : CScript) (witness : List Bytes) (isP2sh : Bool)
  (malleated : ScriptError) (stack : List Bytes) : Eval (Bool × List Bytes) :=
  if flags .witness then
    match witnessProgram? script with
    | none => .ok (false, stack)
    | some (version, program) => do
      failIf (scriptSig != expected) malleated
      verifyWitnessProgram crypto checker flags witness version program isP2sh
      .ok (true, stack.drop (stack.length - 1))
  else .ok (false, stack)

/-- The script that the hash stands for, run on the stack the signature script left. -/
def verifyP2sh (scriptSig : CScript) (witness : List Bytes) (stackCopy : List Bytes) :
  Eval (Bool × List Bytes) := do
  failIf (!isPushOnly scriptSig) .sigPushOnly
  match stackCopy with
  | [] => .error .assertion
  | pubKey2 :: stack => do
    let stack ← evalBase crypto checker flags stack pubKey2
    requireTrue stack
    verifyProgramOf crypto checker flags scriptSig (pushData pubKey2) pubKey2 witness true
      .witnessMalleatedP2sh stack

/-- The part for a script hash, which replaces the stack, where it counts. -/
def verifyNested (scriptSig scriptPubKey : CScript) (witness : List Bytes)
  (stackCopy stack : List Bytes) : Eval (Bool × List Bytes) :=
  if flags .p2sh && isPayToScriptHash scriptPubKey
    then verifyP2sh crypto checker flags scriptSig witness stackCopy else .ok (false, stack)

def checkCleanStack (stack : List Bytes) : Eval Unit :=
  if flags .cleanStack then do
    failIf (!flags .p2sh || !flags .witness) .assertion
    failIf (stack.length != 1) .cleanStack
  else .ok ()

def checkUnexpectedWitness (hadWitness : Bool) (witness : List Bytes) : Eval Unit :=
  if flags .witness then do
    failIf (!flags .p2sh) .assertion
    failIf (!hadWitness && !witness.isEmpty) .witnessUnexpected
  else .ok ()

def verifyScript (scriptSig scriptPubKey : CScript) (witness : List Bytes) : Eval Unit := do
  failIf (flags .sigPushOnly && !isPushOnly scriptSig) .sigPushOnly
  let stackCopy ← evalBase crypto checker flags [] scriptSig
  let stack ← evalBase crypto checker flags stackCopy scriptPubKey
  requireTrue stack
  let (bare, stack) ← verifyProgramOf crypto checker flags scriptSig [] scriptPubKey witness false
    .witnessMalleated stack
  let (nested, stack) ← verifyNested crypto checker flags scriptSig scriptPubKey witness stackCopy
    stack
  checkCleanStack flags stack
  checkUnexpectedWitness flags (bare || nested) witness

end VerifyScript
