import Andaluzcoin.ConnectBlock

/-!
# Disconnecting a block and rolling one forward

`AccessByTxid` of `coins.cpp`, and `ApplyTxInUndo`, `Chainstate::DisconnectBlock` and
`Chainstate::RollforwardBlock` of `validation.cpp`, given the block and its undo data
as they were read from disk.
-/

namespace DisconnectBlock

open Transaction Coins TxVerify ConnectBlock

/-- `WITNESS_SCALE_FACTOR` times the nine bytes of an empty output. -/
def minTransactionOutputWeight : ℕ := witnessScaleFactor * 9

def maxOutputsPerBlock : ℕ := maxBlockWeight / minTransactionOutputWeight

/-- The loop of `AccessByTxid` from output `n` on, for at most `fuel` outputs. -/
def accessByTxidFrom (v : CCoinsViewCache) (txid : Txid) (n : ℕ) : ℕ → Coin × CCoinsViewCache
  | 0 => (Coin.empty, v)
  | fuel + 1 =>
    let alternate := v.accessCoin ⟨txid, n⟩
    if alternate.1.isSpent then accessByTxidFrom alternate.2 txid (n + 1) fuel else alternate

def accessByTxid (v : CCoinsViewCache) (txid : Txid) : Coin × CCoinsViewCache :=
  accessByTxidFrom v txid 0 maxOutputsPerBlock

inductive DisconnectResult where
  | ok
  | unclean
  | failed
  deriving DecidableEq

def applyTxInUndo (undo : Coin) (v : CCoinsViewCache) (out : COutPoint) :
  Except CoinsError (DisconnectResult × CCoinsViewCache) :=
  let present := v.haveCoin out
  let result : DisconnectResult := if present.1 then .unclean else .ok
  if undo.nHeight = 0 then
    let alternate := accessByTxid present.2 out.hash
    if alternate.1.isSpent then .ok (.failed, alternate.2)
    else
      (alternate.2.addCoin out
        { undo with nHeight := alternate.1.nHeight, fCoinBase := alternate.1.fCoinBase }
        present.1).map fun v => (result, v)
  else (present.2.addCoin out undo present.1).map fun v => (result, v)

/-- Remove the outputs of a transaction from number `i` on; whether all of them were there
as the block created them. -/
def removeOutputsFrom (tx : CTransaction) (nHeight : ℕ) (v : CCoinsViewCache) (i : ℕ) :
  List CTxOut → Bool × CCoinsViewCache
  | [] => (true, v)
  | out :: rest =>
    if isUnspendable out.scriptPubKey then removeOutputsFrom tx nHeight v (i + 1) rest
    else
      let spent := v.spendCoin ⟨tx.hash, i⟩
      let later := removeOutputsFrom tx nHeight spent.2 (i + 1) rest
      (spent.1 == some ⟨out, tx.isCoinBase, nHeight⟩ && later.1, later.2)

/-- Restore inputs, given with their undo coins in the order they are restored. -/
def restoreInputs (v : CCoinsViewCache) :
  List (CTxIn × Coin) → Except CoinsError (DisconnectResult × CCoinsViewCache)
  | [] => .ok (.ok, v)
  | (txin, undo) :: rest => do
    let (result, v) ← applyTxInUndo undo v txin.prevout
    if result = .failed then .ok (.failed, v)
    else
      let (later, v) ← restoreInputs v rest
      .ok (if later = .failed then .failed else if result = .unclean then .unclean else later, v)

/-- The blocks whose coinbases later blocks overwrote. -/
def isBIP30Unspendable (pindex : BlockPosition) : Bool :=
  (pindex.nHeight == 91722 && pindex.blockHash
      == 0x00000000000271a2dc26e7667f8419f2e15416dc6955e5a6c6cdf3f2574dd08e#256)
    || (pindex.nHeight == 91812 && pindex.blockHash
      == 0x00000000000af0aed4792b1acee3d966af36cf5def14935db8de83d6f9306f2f#256)

/-- The body of the loop of `DisconnectBlock`; the coinbase has no undo data. -/
def disconnectTx (pindex : BlockPosition) (tx : CTransaction) (txundo : Option CTxUndo)
  (v : CCoinsViewCache) : Except CoinsError (DisconnectResult × CCoinsViewCache) :=
  let removed := removeOutputsFrom tx pindex.nHeight v 0 tx.vout
  let clean : DisconnectResult :=
    if removed.1 || (tx.isCoinBase && isBIP30Unspendable pindex) then .ok else .unclean
  match txundo with
  | none => .ok (clean, removed.2)
  | some txundo =>
    if txundo.length ≠ tx.vin.length then .ok (.failed, removed.2)
    else
      (restoreInputs removed.2 (tx.vin.zip txundo).reverse).map fun (result, v) =>
        (if result = .failed then .failed else if clean = .unclean then .unclean else result, v)

/-- The loop of `DisconnectBlock` over the transactions, the last one first. -/
def disconnectTxs (pindex : BlockPosition) (v : CCoinsViewCache) :
  List (CTransaction × Option CTxUndo) → Except CoinsError (DisconnectResult × CCoinsViewCache)
  | [] => .ok (.ok, v)
  | (tx, txundo) :: rest => do
    let (result, v) ← disconnectTx pindex tx txundo v
    if result = .failed then .ok (.failed, v)
    else
      let (later, v) ← disconnectTxs pindex v rest
      .ok (if later = .failed then .failed else if result = .unclean then .unclean else later, v)

def disconnectBlock (block : CBlock) (blockUndo : List CTxUndo) (pindex : BlockPosition)
  (v : CCoinsViewCache) : Except CoinsError (DisconnectResult × CCoinsViewCache) :=
  if blockUndo.length + 1 ≠ block.vtx.length then .ok (.failed, v)
  else
    (disconnectTxs pindex v (block.vtx.zip (none :: blockUndo.map some)).reverse).map
      fun (result, v) =>
        (result, if result = .failed then v else v.setBestBlock pindex.prevHash)

def spendAll (v : CCoinsViewCache) : List CTxIn → CCoinsViewCache
  | [] => v
  | txin :: rest => spendAll (v.spendCoin txin.prevout).2 rest

def rollforwardTxs (nHeight : ℕ) (v : CCoinsViewCache) :
  List CTransaction → BlockCheck CCoinsViewCache
  | [] => .ok v
  | tx :: rest => do
    let v := if tx.isCoinBase then v else spendAll v tx.vin
    let v ← addCoins v tx nHeight true
    rollforwardTxs nHeight v rest

def rollforwardBlock (block : CBlock) (nHeight : ℕ) (v : CCoinsViewCache) :
  BlockCheck CCoinsViewCache :=
  rollforwardTxs nHeight v block.vtx

end DisconnectBlock
