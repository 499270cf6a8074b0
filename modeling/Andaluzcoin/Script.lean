import Andaluzcoin.Transaction

/-!
# Scripts

The opcodes, `CScriptNum` and `CScript` of `script/script.h` with the readers of
`script/script.cpp`. A script is the list of its bytes; an opcode is what `GetScriptOp`
casts a byte to.
-/

namespace Script

open Transaction

abbrev Bytes := List UInt8

def maxScriptElementSize : ℕ := 520
def maxOpsPerScript : ℕ := 201
def maxPubkeysPerMultisig : ℕ := 20
def maxStackSize : ℕ := 1000
def annexTag : UInt8 := 0x50
def validationWeightPerSigopPassed : Int := 50
def validationWeightOffset : Int := 50

/-- `opcodetype`. The opcodes up to 75 push that many bytes (`OP_0` is the first of them),
`opN n` is `OP_1` to `OP_16`, and the bytes above `OP_CHECKSIGADD` have no meaning yet. -/
inductive Opcode where
  | direct (n : Fin 76)
  | opPushData1 | opPushData2 | opPushData4 | op1Negate | opReserved
  | opN (n : Fin 16)
  | opNop | opVer | opIf | opNotIf | opVerIf | opVerNotIf | opElse | opEndIf | opVerify | opReturn
  | opToAltStack | opFromAltStack | op2Drop | op2Dup | op3Dup | op2Over | op2Rot | op2Swap
  | opIfDup | opDepth | opDrop | opDup | opNip | opOver | opPick | opRoll | opRot | opSwap | opTuck
  | opCat | opSubStr | opLeft | opRight | opSize
  | opInvert | opAnd | opOr | opXor | opEqual | opEqualVerify | opReserved1 | opReserved2
  | op1Add | op1Sub | op2Mul | op2Div | opNegate | opAbs | opNot | op0NotEqual
  | opAdd | opSub | opMul | opDiv | opMod | opLShift | opRShift
  | opBoolAnd | opBoolOr | opNumEqual | opNumEqualVerify | opNumNotEqual | opLessThan
  | opGreaterThan | opLessThanOrEqual | opGreaterThanOrEqual | opMin | opMax | opWithin
  | opRipemd160 | opSha1 | opSha256 | opHash160 | opHash256 | opCodeSeparator
  | opCheckSig | opCheckSigVerify | opCheckMultisig | opCheckMultisigVerify
  | opNop1 | opCheckLockTimeVerify | opCheckSequenceVerify | opNop4 | opNop5 | opNop6 | opNop7
  | opNop8 | opNop9 | opNop10 | opCheckSigAdd
  | unknown (n : Fin 69)
  deriving DecidableEq

namespace Opcode

/-- The opcodes from `OP_NOP` to `OP_CHECKSIGADD` in the order of their bytes. -/
def named : List Opcode :=
  [opNop, opVer, opIf, opNotIf, opVerIf, opVerNotIf, opElse, opEndIf, opVerify, opReturn,
    opToAltStack, opFromAltStack, op2Drop, op2Dup, op3Dup, op2Over, op2Rot, op2Swap,
    opIfDup, opDepth, opDrop, opDup, opNip, opOver, opPick, opRoll, opRot, opSwap, opTuck,
    opCat, opSubStr, opLeft, opRight, opSize,
    opInvert, opAnd, opOr, opXor, opEqual, opEqualVerify, opReserved1, opReserved2,
    op1Add, op1Sub, op2Mul, op2Div, opNegate, opAbs, opNot, op0NotEqual,
    opAdd, opSub, opMul, opDiv, opMod, opLShift, opRShift,
    opBoolAnd, opBoolOr, opNumEqual, opNumEqualVerify, opNumNotEqual, opLessThan,
    opGreaterThan, opLessThanOrEqual, opGreaterThanOrEqual, opMin, opMax, opWithin,
    opRipemd160, opSha1, opSha256, opHash160, opHash256, opCodeSeparator,
    opCheckSig, opCheckSigVerify, opCheckMultisig, opCheckMultisigVerify,
    opNop1, opCheckLockTimeVerify, opCheckSequenceVerify, opNop4, opNop5, opNop6, opNop7,
    opNop8, opNop9, opNop10, opCheckSigAdd]

/-- The value of the enumeration. -/
def code : Opcode → ℕ
  | direct n => n
  | opPushData1 => 0x4c | opPushData2 => 0x4d | opPushData4 => 0x4e
  | op1Negate => 0x4f | opReserved => 0x50
  | opN n => 0x51 + n
  | opNop => 0x61 | opVer => 0x62 | opIf => 0x63 | opNotIf => 0x64 | opVerIf => 0x65
  | opVerNotIf => 0x66 | opElse => 0x67 | opEndIf => 0x68 | opVerify => 0x69 | opReturn => 0x6a
  | opToAltStack => 0x6b | opFromAltStack => 0x6c | op2Drop => 0x6d | op2Dup => 0x6e
  | op3Dup => 0x6f | op2Over => 0x70 | op2Rot => 0x71 | op2Swap => 0x72 | opIfDup => 0x73
  | opDepth => 0x74 | opDrop => 0x75 | opDup => 0x76 | opNip => 0x77 | opOver => 0x78
  | opPick => 0x79 | opRoll => 0x7a | opRot => 0x7b | opSwap => 0x7c | opTuck => 0x7d
  | opCat => 0x7e | opSubStr => 0x7f | opLeft => 0x80 | opRight => 0x81 | opSize => 0x82
  | opInvert => 0x83 | opAnd => 0x84 | opOr => 0x85 | opXor => 0x86 | opEqual => 0x87
  | opEqualVerify => 0x88 | opReserved1 => 0x89 | opReserved2 => 0x8a
  | op1Add => 0x8b | op1Sub => 0x8c | op2Mul => 0x8d | op2Div => 0x8e | opNegate => 0x8f
  | opAbs => 0x90 | opNot => 0x91 | op0NotEqual => 0x92
  | opAdd => 0x93 | opSub => 0x94 | opMul => 0x95 | opDiv => 0x96 | opMod => 0x97
  | opLShift => 0x98 | opRShift => 0x99
  | opBoolAnd => 0x9a | opBoolOr => 0x9b | opNumEqual => 0x9c | opNumEqualVerify => 0x9d
  | opNumNotEqual => 0x9e | opLessThan => 0x9f | opGreaterThan => 0xa0
  | opLessThanOrEqual => 0xa1 | opGreaterThanOrEqual => 0xa2 | opMin => 0xa3 | opMax => 0xa4
  | opWithin => 0xa5
  | opRipemd160 => 0xa6 | opSha1 => 0xa7 | opSha256 => 0xa8 | opHash160 => 0xa9
  | opHash256 => 0xaa | opCodeSeparator => 0xab | opCheckSig => 0xac | opCheckSigVerify => 0xad
  | opCheckMultisig => 0xae | opCheckMultisigVerify => 0xaf
  | opNop1 => 0xb0 | opCheckLockTimeVerify => 0xb1 | opCheckSequenceVerify => 0xb2
  | opNop4 => 0xb3 | opNop5 => 0xb4 | opNop6 => 0xb5 | opNop7 => 0xb6 | opNop8 => 0xb7
  | opNop9 => 0xb8 | opNop10 => 0xb9 | opCheckSigAdd => 0xba
  | unknown n => 0xbb + n

def toByte (op : Opcode) : UInt8 := UInt8.ofNat op.code

/-- The cast of a byte to `opcodetype`. -/
def ofByte (b : UInt8) : Opcode :=
  let n := b.toNat
  if direct_ : n < 76 then direct ⟨n, direct_⟩
  else if n = 0x4c then opPushData1
  else if n = 0x4d then opPushData2
  else if n = 0x4e then opPushData4
  else if n = 0x4f then op1Negate
  else if n = 0x50 then opReserved
  else if small : n - 0x51 < 16 then opN ⟨n - 0x51, small⟩
  else if n < 0xbb then named.getD (n - 0x61) opNop
  else unknown (Fin.ofNat 69 (n - 0xbb))

def op0 : Opcode := direct 0

/-- `opcode <= OP_PUSHDATA4`. -/
def isPush (op : Opcode) : Bool := op.code ≤ opPushData4.code

/-- `opcode > OP_16`. -/
def counts (op : Opcode) : Bool := op.code > (opN 15).code

/-- The opcodes that fail wherever they stand in a script. -/
def isDisabled : Opcode → Bool
  | opCat | opSubStr | opLeft | opRight | opInvert | opAnd | opOr | opXor | op2Mul | op2Div
  | opMul | opDiv | opMod | opLShift | opRShift => true
  | _ => false

/-- `IsOpSuccess`. -/
def isOpSuccess (op : Opcode) : Bool :=
  let n := op.code
  n == 80 || n == 98 || (126 ≤ n && n ≤ 129) || (131 ≤ n && n ≤ 134) || (137 ≤ n && n ≤ 138)
    || (141 ≤ n && n ≤ 142) || (149 ≤ n && n ≤ 153) || (187 ≤ n && n ≤ 254)

end Opcode

/-- The number whose bytes are given, the least significant first. -/
def readLE : Bytes → ℕ
  | [] => 0
  | b :: rest => b.toNat + 256 * readLE rest

/-- The bytes of a number, the least significant first, as many as asked for. -/
def writeLE : ℕ → ℕ → Bytes
  | 0, _ => []
  | size + 1, n => UInt8.ofNat n :: writeLE size (n / 256)

namespace CScriptNum

def nDefaultMaxNumSize : ℕ := 4

/-- The bytes of a magnitude up to the last one that is not zero; a `uint64_t` has eight. -/
def magnitude : ℕ → ℕ → Bytes
  | 0, _ => []
  | size + 1, n => if n = 0 then [] else UInt8.ofNat n :: magnitude size (n / 256)

/-- Give the last byte the sign, in a byte of its own when its highest bit is in use. -/
def sign (neg : Bool) : Bytes → Bytes
  | [] => []
  | [b] => if b &&& 0x80 ≠ 0 then [b, if neg then 0x80 else 0]
    else [if neg then b ||| 0x80 else b]
  | b :: c :: rest => b :: sign neg (c :: rest)

def serialize (value : Int) : Bytes := sign (value < 0) (magnitude 8 value.natAbs)

/-- `set_vch`. -/
def decode (vch : Bytes) : Int :=
  if (vch.getLastD 0) &&& 0x80 ≠ 0 then
    -((readLE vch : Int) - 0x80 * 256 ^ (vch.length - 1))
  else readLE vch

/-- The encoding has no superfluous byte. -/
def isMinimal (vch : Bytes) : Bool :=
  vch.isEmpty || (vch.getLastD 0) &&& 0x7f ≠ 0 ||
    (vch.length > 1 && (vch.getD (vch.length - 2) 0) &&& 0x80 ≠ 0)

def getint (value : Int) : Int :=
  if value > 2 ^ 31 - 1 then 2 ^ 31 - 1 else if value < -2 ^ 31 then -2 ^ 31 else value

end CScriptNum

/-- The opcodes and sizes in front of pushed data, `AppendDataSize`. -/
def appendDataSize (size : ℕ) : Bytes :=
  if size < 0x4c then [UInt8.ofNat size]
  else if size ≤ 0xff then [Opcode.opPushData1.toByte, UInt8.ofNat size]
  else if size ≤ 0xffff then Opcode.opPushData2.toByte :: writeLE 2 size
  else Opcode.opPushData4.toByte :: writeLE 4 size

/-- `CScript() << data`. -/
def pushData (data : Bytes) : CScript := appendDataSize data.length ++ data

/-- Split off pushed data of a size. -/
def splitPush (op : Opcode) (nSize : ℕ) (rest : Bytes) : Option (Opcode × Bytes × CScript) :=
  if rest.length < nSize then none else some (op, rest.take nSize, rest.drop nSize)

/-- `GetScriptOp`: the opcode in front, the data it pushes and the rest of the script. -/
def getOp : CScript → Option (Opcode × Bytes × CScript)
  | [] => none
  | b :: rest =>
    match Opcode.ofByte b with
    | .direct n => splitPush (.direct n) n rest
    | .opPushData1 =>
      if rest.length < 1 then none
      else splitPush .opPushData1 (readLE (rest.take 1)) (rest.drop 1)
    | .opPushData2 =>
      if rest.length < 2 then none
      else splitPush .opPushData2 (readLE (rest.take 2)) (rest.drop 2)
    | .opPushData4 =>
      if rest.length < 4 then none
      else splitPush .opPushData4 (readLE (rest.take 4)) (rest.drop 4)
    | op => some (op, [], rest)

def checkMinimalPush (data : Bytes) (op : Opcode) : Bool :=
  match data with
  | [] => op == Opcode.op0
  | [b] => if 1 ≤ b ∧ b ≤ 16 then false else if b = 0x81 then false else op.code == 1
  | _ =>
    if data.length ≤ 75 then op.code == data.length
    else if data.length ≤ 255 then op == .opPushData1
    else if data.length ≤ 65535 then op == .opPushData2
    else true

/-- The loop of `IsPushOnly`. -/
def isPushOnlyFrom : ℕ → CScript → Bool
  | _, [] => true
  | 0, _ => false
  | fuel + 1, script =>
    match getOp script with
    | none => false
    | some (op, _, rest) => !op.counts && isPushOnlyFrom fuel rest

def isPushOnly (script : CScript) : Bool := isPushOnlyFrom script.length script

def isPayToScriptHash (script : CScript) : Bool :=
  script.length == 23 && script.getD 0 0 == Opcode.opHash160.toByte && script.getD 1 0 == 0x14
    && script.getD 22 0 == Opcode.opEqual.toByte

/-- `IsWitnessProgram`: the version and the program. -/
def witnessProgram? (script : CScript) : Option (ℕ × Bytes) :=
  match script with
  | version :: size :: program =>
    if script.length < 4 || script.length > 42 then none
    else if version ≠ 0 && (version < 0x51 || version > 0x60) then none
    else if size.toNat = program.length then
      some (if version = 0 then 0 else version.toNat - 0x50, program)
    else none
  | _ => none

/-- `IsPayToAnchor` of a version and a program. -/
def isPayToAnchor (version : ℕ) (program : Bytes) : Bool := version == 1 && program == [0x4e, 0x73]

end Script
