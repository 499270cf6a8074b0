import Andaluzcoin.TxVerify

/-!
# Connecting a block

`CheckBlock`, `GetBlockSubsidy`, `UpdateCoins` and `Chainstate::ConnectBlock` of
`validation.cpp`, and the way `ConnectTip` runs `ConnectBlock` on an overlay of the
coins cache. The checks that
read no amounts (proof of work, merkle root, sigops, BIP68, scripts) are functions
of what they read, left open.
-/

namespace ConnectBlock

open Transaction Coins Outcome TxVerify

/-- A block, by the hash of its header. -/
structure CBlock where
  hash : Uint256
  vtx : List CTransaction
  deriving DecidableEq

/-- What is read of the block's `CBlockIndex`: its own hash and those of the chain
it extends, from genesis to `pprev`. -/
structure BlockPosition where
  ancestors : List Uint256
  blockHash : Uint256
  deriving DecidableEq

def BlockPosition.nHeight (pindex : BlockPosition) : ℕ := pindex.ancestors.length

def BlockPosition.prevHash (pindex : BlockPosition) : Uint256 := pindex.ancestors.getLast?.getD 0

structure ConsensusParams where
  hashGenesisBlock : Uint256
  nSubsidyHalvingInterval : ℕ
  bip34Height : ℕ
  bip34Hash : Uint256
  signetBlocks : Bool

/-- The outcomes of the checks that are not about amounts. Where a check reads coins,
it is given the coins of the transaction's inputs; where it can fail in several ways,
its outcome is the reason of the failure. -/
structure OtherChecks where
  checkBlockHeader : CBlock → Bool
  checkSignetBlockSolution : CBlock → Bool
  checkMerkleRoot : CBlock → Option String
  getLegacySigOpCount : CTransaction → ℕ
  getTransactionSigOpCost : BlockPosition → CTransaction → List Coin → ℕ
  sequenceLocks : BlockPosition → CTransaction → List ℕ → Bool
  checkInputScripts : BlockPosition → CTransaction → List Coin → Option String
  fScriptChecks : BlockPosition → Bool

/-- A block that passes all of them. -/
def OtherChecks.passing : OtherChecks where
  checkBlockHeader := fun _ => true
  checkSignetBlockSolution := fun _ => true
  checkMerkleRoot := fun _ => none
  getLegacySigOpCount := fun _ => 0
  getTransactionSigOpCost := fun _ _ _ => 0
  sequenceLocks := fun _ _ _ => true
  checkInputScripts := fun _ _ _ => none
  fScriptChecks := fun _ => true

inductive BlockValidationResult where
  | consensus
  | invalidHeader
  | mutated
  deriving DecidableEq

abbrev BlockCheck := Except (Failure BlockValidationResult)

def rejectFor (result : BlockValidationResult) : Option String → BlockCheck Unit
  | none => .ok ()
  | some reason => .error (.invalid result reason)

/-- A failed transaction check makes the block invalid for the same reason. -/
def Failure.inBlock : Failure TxValidationResult → Failure BlockValidationResult
  | .invalid _ reason => .invalid .consensus reason
  | .assertion what => .assertion what
  | .logicError error => .logicError error
  | .runtimeError what => .runtimeError what
  | .overflow => .overflow

def inBlock {α : Type} (check : TxCheck α) : BlockCheck α := check.mapError Failure.inBlock

def throwing {α : Type} (op : Except CoinsError α) : BlockCheck α := op.mapError .logicError

def maxBlockSigOpsCost : ℕ := 80000
def bip34ImpliesBip30Limit : ℕ := 1983702

def serializeSizeBlockNoWitness (block : CBlock) : ℕ :=
  80 + getSizeOfCompactSize block.vtx.length + (block.vtx.map serializeSizeNoWitness).sum

/-- `CheckBlock` with both of its flags set, as `ConnectBlock` calls it. -/
def checkBlock (params : ConsensusParams) (checks : OtherChecks) (block : CBlock) :
  BlockCheck Unit := do
  failIf (!checks.checkBlockHeader block) (.invalid .invalidHeader "high-hash")
  failIf (params.signetBlocks && !checks.checkSignetBlockSolution block)
    (.invalid .consensus "bad-signet-blksig")
  rejectFor .mutated (checks.checkMerkleRoot block)
  failIf (block.vtx.isEmpty || block.vtx.length * witnessScaleFactor > maxBlockWeight
      || serializeSizeBlockNoWitness block * witnessScaleFactor > maxBlockWeight)
    (.invalid .consensus "bad-blk-length")
  failIf (!(block.vtx.head?.any CTransaction.isCoinBase)) (.invalid .consensus "bad-cb-missing")
  failIf (block.vtx.tail.any CTransaction.isCoinBase) (.invalid .consensus "bad-cb-multiple")
  block.vtx.forM fun tx => inBlock (checkTransaction tx)
  failIf ((block.vtx.map checks.getLegacySigOpCount).sum * witnessScaleFactor > maxBlockSigOpsCost)
    (.invalid .consensus "bad-blk-sigops")

def getBlockSubsidy (params : ConsensusParams) (nHeight : ℕ) : Int :=
  let halvings := nHeight / params.nSubsidyHalvingInterval
  if halvings ≥ 64 then 0 else 50 * Transaction.coin / 2 ^ halvings

/-- The inputs of `UpdateCoins`: each coin is spent and moved into the undo data. -/
def spendInputs (v : CCoinsViewCache) : List CTxIn → BlockCheck (List Coin × CCoinsViewCache)
  | [] => .ok ([], v)
  | txin :: rest =>
    match v.spendCoin txin.prevout with
    | (none, _) => .error (.assertion "is_spent")
    | (some coin, v) => do
      let (coins, v) ← spendInputs v rest
      .ok (coin :: coins, v)

/-- `AddCoins` from output number `i` on. -/
def addCoinsFrom (tx : CTransaction) (nHeight : ℕ) (checkForOverwrite : Bool)
  (v : CCoinsViewCache) (i : ℕ) : List CTxOut → BlockCheck CCoinsViewCache
  | [] => .ok v
  | out :: rest => do
    let r := if checkForOverwrite then v.haveCoin ⟨tx.hash, i⟩ else (tx.isCoinBase, v)
    let v ← throwing (r.2.addCoin ⟨tx.hash, i⟩ ⟨out, tx.isCoinBase, nHeight⟩ r.1)
    addCoinsFrom tx nHeight checkForOverwrite v (i + 1) rest

def addCoins (v : CCoinsViewCache) (tx : CTransaction) (nHeight : ℕ) (checkForOverwrite : Bool) :
  BlockCheck CCoinsViewCache :=
  addCoinsFrom tx nHeight checkForOverwrite v 0 tx.vout

/-- The coins of one transaction's inputs: a `CTxUndo`. -/
abbrev CTxUndo := List Coin

def updateCoins (tx : CTransaction) (inputs : CCoinsViewCache) (nHeight : ℕ) :
  BlockCheck (CTxUndo × CCoinsViewCache) := do
  let (txundo, inputs) ←
    (if tx.isCoinBase then .ok ([], inputs) else spendInputs inputs tx.vin : BlockCheck _)
  let inputs ← addCoins inputs tx nHeight false
  .ok (txundo, inputs)

def isBIP30Repeat (pindex : BlockPosition) : Bool :=
  (pindex.nHeight == 91842 && pindex.blockHash
      == 0x00000000000a4d0a398161ffc163c503763b1f4360639393e0e4c8e300e0caec#256)
    || (pindex.nHeight == 91880 && pindex.blockHash
      == 0x00000000000743f190a18c5577a3c2d2a1f610ae9601ac046a38084ccb7cd721#256)

/-- Whether `ConnectBlock` looks for outputs that would overwrite unspent ones. -/
def enforcesBIP30 (params : ConsensusParams) (pindex : BlockPosition) : Bool :=
  (!isBIP30Repeat pindex && pindex.ancestors[params.bip34Height]? != some params.bip34Hash)
    || pindex.nHeight ≥ bip34ImpliesBip30Limit

/-- Whether any output from number `i` on is present; every output is looked up. -/
def haveOutputsFrom (txid : Txid) (v : CCoinsViewCache) (i : ℕ) :
  List CTxOut → Bool × CCoinsViewCache
  | [] => (false, v)
  | _ :: rest =>
    let r := v.haveCoin ⟨txid, i⟩
    let later := haveOutputsFrom txid r.2 (i + 1) rest
    (r.1 || later.1, later.2)

def haveAnyOutput (v : CCoinsViewCache) : List CTransaction → Bool × CCoinsViewCache
  | [] => (false, v)
  | tx :: rest =>
    let r := haveOutputsFrom tx.hash v 0 tx.vout
    let later := haveAnyOutput r.2 rest
    (r.1 || later.1, later.2)

/-- `AccessCoin` for each input. -/
def accessInputs (v : CCoinsViewCache) : List CTxIn → List Coin × CCoinsViewCache
  | [] => ([], v)
  | txin :: rest =>
    let r := v.accessCoin txin.prevout
    let later := accessInputs r.2 rest
    (r.1 :: later.1, later.2)

/-- The local variables of `ConnectBlock` that its loop carries. -/
structure Connecting where
  view : CCoinsViewCache
  nFees : Int
  nSigOpsCost : ℕ
  vtxundo : List CTxUndo

/-- The part of the loop body before the sigop count, for a transaction with inputs. -/
def checkInputs (checks : OtherChecks) (pindex : BlockPosition) (tx : CTransaction)
  (st : Connecting) : BlockCheck Connecting := do
  let (txfee, view) ← inBlock (checkTxInputs tx st.view pindex.nHeight)
  let nFees ← addAmount st.nFees txfee
  failIf (!moneyRange nFees) (.invalid .consensus "bad-txns-accumulated-fee-outofrange")
  let prev := accessInputs view tx.vin
  failIf (!checks.sequenceLocks pindex tx (prev.1.map Coin.nHeight))
    (.invalid .consensus "bad-txns-nonfinal")
  .ok { st with view := prev.2, nFees := nFees }

/-- One iteration of the loop of `ConnectBlock`, for transaction number `i`. -/
def connectTx (checks : OtherChecks) (pindex : BlockPosition) (i : ℕ) (tx : CTransaction)
  (st : Connecting) : BlockCheck Connecting := do
  let st ← (if tx.isCoinBase then .ok st else checkInputs checks pindex tx st : BlockCheck _)
  let prev := if tx.isCoinBase then ([], st.view) else accessInputs st.view tx.vin
  let nSigOpsCost := st.nSigOpsCost + checks.getTransactionSigOpCost pindex tx prev.1
  failIf (nSigOpsCost > maxBlockSigOpsCost) (.invalid .consensus "bad-blk-sigops")
  rejectFor .consensus
    (if !tx.isCoinBase && checks.fScriptChecks pindex
      then checks.checkInputScripts pindex tx prev.1 else none)
  let (txundo, view) ← updateCoins tx prev.2 pindex.nHeight
  .ok { st with
    view := view
    nSigOpsCost := nSigOpsCost
    vtxundo := if i = 0 then st.vtxundo else st.vtxundo ++ [txundo] }

def connectTxs (checks : OtherChecks) (pindex : BlockPosition) (i : ℕ) (st : Connecting) :
  List CTransaction → BlockCheck Connecting
  | [] => .ok st
  | tx :: rest => do
    let st ← connectTx checks pindex i tx st
    connectTxs checks pindex (i + 1) st rest

/-- `ConnectBlock` takes a mutated block it was given for broken hardware. -/
def corruptBlock : Failure BlockValidationResult → Failure BlockValidationResult
  | .invalid .mutated _ =>
    .runtimeError "Corrupt block found indicating potential hardware failure."
  | failure => failure

/-- `ConnectBlock` with `fJustCheck` false: the block's undo data and the new view. -/
def connectBlock (params : ConsensusParams) (checks : OtherChecks) (block : CBlock)
  (pindex : BlockPosition) (view : CCoinsViewCache) :
  BlockCheck (List CTxUndo × CCoinsViewCache) := do
  failIf (pindex.blockHash ≠ block.hash) (.assertion "*pindex->phashBlock == block_hash")
  (checkBlock params checks block).mapError corruptBlock
  let best := view.getBestBlock
  failIf (best.1 ≠ pindex.prevHash) (.assertion "hashPrevBlock == view.GetBestBlock()")
  if block.hash = params.hashGenesisBlock then
    .ok ([], best.2.setBestBlock pindex.blockHash)
  else
    failIf pindex.ancestors.isEmpty (.assertion "pindex->pprev")
    let bip30 := if enforcesBIP30 params pindex then haveAnyOutput best.2 block.vtx
      else (false, best.2)
    failIf bip30.1 (.invalid .consensus "bad-txns-BIP30")
    let st ← connectTxs checks pindex 0 ⟨bip30.2, 0, 0, []⟩ block.vtx
    let blockReward ← addAmount st.nFees (getBlockSubsidy params pindex.nHeight)
    match block.vtx with
    | [] => .error (.assertion "block.vtx[0]")
    | coinbase :: _ =>
      let paid ← getValueOut coinbase
      failIf (paid > blockReward) (.invalid .consensus "bad-cb-amount")
      .ok (st.vtxundo, st.view.setBestBlock pindex.blockHash)

/-- What `ConnectTip` does to the coins cache: `ConnectBlock` on an overlay that is
flushed into it. -/
def connectTip (params : ConsensusParams) (checks : OtherChecks) (block : CBlock)
  (pindex : BlockPosition) (coinsTip : CCoinsViewCache) :
  BlockCheck (List CTxUndo × CCoinsViewCache) := do
  let (undo, view) ← connectBlock params checks block pindex
    ⟨CacheLayer.new true, coinsTip.toView⟩
  let flushed ← throwing view.flush
  match flushed.base with
  | .cache l base => .ok (undo, ⟨l, base⟩)
  | .bottom _ => .error (.assertion "base")

end ConnectBlock
