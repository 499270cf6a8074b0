import Mathlib

/-!
# Compact targets and the difficulty rules

`arith_uint256::SetCompact` and `GetCompact`, `GetBitsProof` of `chain.cpp`, and
`GetNextWorkRequired`, `CalculateNextWorkRequired`, `PermittedDifficultyTransition` and
`DeriveTarget` of `pow.cpp`. A chain of block index entries is the list of them from genesis on.
-/

namespace Pow

abbrev ArithUint256 := BitVec 256

def bits (x : ArithUint256) : ℕ := if x = 0 then 0 else x.toNat.log2 + 1

def getLow64 (x : ArithUint256) : ℕ := x.toNat % 2 ^ 64

/-- What `SetCompact` decodes and the flags it raises. -/
structure Decoded where
  value : ArithUint256
  fNegative : Bool
  fOverflow : Bool
  deriving DecidableEq

def setCompact (nCompact : BitVec 32) : Decoded :=
  let nSize := (nCompact >>> 24).toNat
  let word := nCompact &&& 0x007fffff#32
  let nWord := if nSize ≤ 3 then word >>> (8 * (3 - nSize)) else word
  { value :=
      if nSize ≤ 3 then BitVec.ofNat 256 nWord.toNat
      else BitVec.ofNat 256 nWord.toNat <<< (8 * (nSize - 3))
    fNegative := nWord != 0 && nCompact &&& 0x00800000#32 != 0
    fOverflow := nWord != 0 && (nSize > 34 || (nWord.toNat > 0xff && nSize > 33)
      || (nWord.toNat > 0xffff && nSize > 32)) }

/-- `GetCompact` of a number that is not negative. -/
def getCompact (x : ArithUint256) : BitVec 32 :=
  let nSize := (bits x + 7) / 8
  let nCompact :=
    if nSize ≤ 3 then BitVec.ofNat 32 (getLow64 x <<< (8 * (3 - nSize)) % 2 ^ 64)
    else BitVec.ofNat 32 (getLow64 (x >>> (8 * (nSize - 3))))
  let signed := nCompact &&& 0x00800000#32 != 0
  let nCompact := if signed then nCompact >>> 8 else nCompact
  let nSize := if signed then nSize + 1 else nSize
  nCompact ||| BitVec.ofNat 32 nSize <<< 24

/-- `operator*=` with a `uint32_t`, to which its argument is converted. -/
def mulUint32 (x : ArithUint256) (n : Int) : ArithUint256 := x * BitVec.ofNat 256 (n % 2 ^ 32).toNat

/-- `operator/=` with a number made from a `uint64_t`. -/
def divUint64 (x : ArithUint256) (n : Int) : ArithUint256 := x / BitVec.ofNat 256 (n % 2 ^ 64).toNat

/-- The expected number of hashes for a block with these bits. -/
def getBitsProof (bits : BitVec 32) : ArithUint256 :=
  let decoded := setCompact bits
  if decoded.fNegative || decoded.fOverflow || decoded.value == 0 then 0
  else ~~~decoded.value / (decoded.value + 1) + 1

/-- The fields of `Consensus::Params` that the difficulty rules read. -/
structure Params where
  powLimit : ArithUint256
  fPowAllowMinDifficultyBlocks : Bool
  enforceBIP94 : Bool
  fPowNoRetargeting : Bool
  nPowTargetSpacing : Int
  nPowTargetTimespan : Int

def Params.difficultyAdjustmentInterval (params : Params) : Int :=
  params.nPowTargetTimespan.tdiv params.nPowTargetSpacing

/-- What the rules read of a block index entry. -/
structure ChainEntry where
  nTime : BitVec 32
  nBits : BitVec 32
  deriving DecidableEq

def getBlockTime (e : ChainEntry) : Int := e.nTime.toNat

/-- The last block that is no minimum-difficulty block, from the end of the chain back. -/
def lastRealDifficulty (interval : Int) (nProofOfWorkLimit : BitVec 32) :
  List ChainEntry → BitVec 32
  | [] => nProofOfWorkLimit
  | [e] => e.nBits
  | e :: rest =>
    if (rest.length : Int).tmod interval ≠ 0 ∧ e.nBits = nProofOfWorkLimit
    then lastRealDifficulty interval nProofOfWorkLimit rest
    else e.nBits

/-- The height of the first block of the period that ends with the chain. -/
def nHeightFirst (params : Params) (chain : List ChainEntry) : Int :=
  (chain.length : Int) - 1 - (params.difficultyAdjustmentInterval - 1)

def calculateNextWorkRequired (params : Params) (chain : List ChainEntry) (last : ChainEntry)
  (nFirstBlockTime : Int) : BitVec 32 :=
  if params.fPowNoRetargeting then last.nBits
  else
    let nActualTimespan := getBlockTime last - nFirstBlockTime
    let nActualTimespan := if nActualTimespan < params.nPowTargetTimespan.tdiv 4
      then params.nPowTargetTimespan.tdiv 4 else nActualTimespan
    let nActualTimespan := if nActualTimespan > params.nPowTargetTimespan * 4
      then params.nPowTargetTimespan * 4 else nActualTimespan
    let oldBits := if params.enforceBIP94
      then ((chain[(nHeightFirst params chain).toNat]?).map ChainEntry.nBits).getD 0
      else last.nBits
    let bnNew := divUint64 (mulUint32 (setCompact oldBits).value nActualTimespan)
      params.nPowTargetTimespan
    getCompact (if bnNew > params.powLimit then params.powLimit else bnNew)

inductive WorkError where
  | assertion (what : String)
  deriving DecidableEq

def getNextWorkRequired (params : Params) (chain : List ChainEntry) (nBlockTime : Int) :
  Except WorkError (BitVec 32) :=
  match chain.getLast? with
  | none => .error (.assertion "pindexLast != nullptr")
  | some last =>
    let nProofOfWorkLimit := getCompact params.powLimit
    if (chain.length : Int).tmod params.difficultyAdjustmentInterval ≠ 0 then
      if params.fPowAllowMinDifficultyBlocks then
        if nBlockTime > getBlockTime last + params.nPowTargetSpacing * 2 then .ok nProofOfWorkLimit
        else .ok (lastRealDifficulty params.difficultyAdjustmentInterval nProofOfWorkLimit
          chain.reverse)
      else .ok last.nBits
    else if nHeightFirst params chain < 0 then .error (.assertion "nHeightFirst >= 0")
    else
      match chain[(nHeightFirst params chain).toNat]? with
      | none => .error (.assertion "pindexFirst")
      | some first => .ok (calculateNextWorkRequired params chain last (getBlockTime first))

/-- The target that results from an old one after a timespan, capped and rounded. -/
def targetAfter (params : Params) (nBits : BitVec 32) (timespan : Int) : ArithUint256 :=
  let target := divUint64 (mulUint32 (setCompact nBits).value timespan) params.nPowTargetTimespan
  (setCompact (getCompact (if target > params.powLimit then params.powLimit else target))).value

def permittedDifficultyTransition (params : Params) (height : Int) (oldNBits newNBits : BitVec 32) :
  Bool :=
  if params.fPowAllowMinDifficultyBlocks then true
  else if height.tmod params.difficultyAdjustmentInterval = 0 then
    let observed := (setCompact newNBits).value
    let maximum := targetAfter params oldNBits (params.nPowTargetTimespan * 4)
    let minimum := targetAfter params oldNBits (params.nPowTargetTimespan.tdiv 4)
    !(maximum < observed) && !(minimum > observed)
  else oldNBits == newNBits

def deriveTarget (nBits : BitVec 32) (powLimit : ArithUint256) : Option ArithUint256 :=
  let decoded := setCompact nBits
  if decoded.fNegative || decoded.value == 0 || decoded.fOverflow || decoded.value > powLimit
  then none else some decoded.value

end Pow
