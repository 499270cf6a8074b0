import Andaluzcoin.UtxoWrites

/-!
# Disconnecting a block undoes connecting it

The loop of `ConnectBlock` performs the writes of the block and collects undo data that
fits them, as long as the block overwrites no unspent coin. `DisconnectBlock` on the
result and this undo data then finds every output as it was created, and restores the
coins that were there before.
-/

namespace UtxoUndo

open Transaction Coins CoinsInvariant Outcome TxVerifySpec ConnectBlock ConnectBlockSpec
open DisconnectBlock LayeredMap UtxoSet UtxoWrites List

variable {pindex : BlockPosition} {block : CBlock} {v v' : CCoinsViewCache}
  {params : ConsensusParams} {undo : List CTxUndo} {checks : OtherChecks} {u : Utxo}

/-- A view of unspent coins: the caches keep their promises and every coin shown is one
that `AddCoin` stores. -/
structure UtxoView where
  view : CCoinsViewCache
  valid : Valid true view.toView
  spendable : ∀ o coin, view.peekCoin o = some coin → isUnspendable coin.out.scriptPubKey = false

lemma UtxoView.sane (V : UtxoView)
  (hh : ∀ o coin, V.view.peekCoin o = some coin → 1 ≤ coin.nHeight) : Sane V.view.peekCoin := by
  intro o coin hf
  have height := hh o coin hf
  exact ⟨peekCoin_unspent V.view.toView o hf, V.spendable o coin hf, by omega⟩

lemma Connects.undoable {bip30 : Bool} {nHeight : ℕ} (height : nHeight ≠ 0) (sane : Sane u)
  {undone : List UndoneTx} (connects : Connects bip30 nHeight u undone) :
  ∀ p ∈ undone, Undoable p := by
  induction undone generalizing u with
  | nil => exact fun p hm => absurd hm (not_mem_nil)
  | cons first rest ih =>
    intro p hm
    rcases mem_cons.mp hm with rfl | hm
    · exact ⟨connects.1.shaped, fun q taken => sane q.1 q.2 (connects.1.held q taken)⟩
    · exact ih (sane.txWrites height connects.1.outputs) connects.2 p hm

section
variable {v : CCoinsViewCache}

lemma haveOutputsFrom_absent (hv : Valid true v.toView) {txid : Txid} {i : ℕ}
  {outs : List CTxOut} (none : (haveOutputsFrom txid v i outs).1 = false) :
  ∀ j < outs.length, v.peekCoin ⟨txid, i + j⟩ = .none := by
  induction outs generalizing v i with
  | nil => exact fun j hb => absurd hb (Nat.not_lt_zero j)
  | cons out rest ih =>
    obtain ⟨hs, hp, ha⟩ := haveCoin_same hv ⟨txid, i⟩
    obtain ⟨hh, hl⟩ := Bool.or_eq_false_iff.mp none
    intro j hb
    rcases j with _ | j
    · rw [← hs.peekCoin]
      exact ha hh
    · have shown := ih hs.valid hl j (by simpa using hb)
      rwa [hs.peekCoin, add_right_comm] at shown

/-- The BIP30 check: no output of the block is there. -/
lemma haveAnyOutput_absent (hv : Valid true v.toView) {txs : List CTransaction}
  (none : (haveAnyOutput v txs).1 = false) (nHeight : ℕ) :
  ∀ tx ∈ txs, ∀ p ∈ created tx nHeight, v.peekCoin p.1 = .none := by
  induction txs generalizing v with
  | nil => exact fun tx hm => absurd hm (not_mem_nil)
  | cons tx rest ih =>
    obtain ⟨hh, hl⟩ := Bool.or_eq_false_iff.mp none
    have same := haveOutputsFrom_same hv tx.hash 0 tx.vout
    intro tx' hm p hc
    rcases mem_cons.mp hm with rfl | hm
    · obtain ⟨j, out, hf, -, rfl⟩ := mem_createdFrom hc
      have bound : j < tx'.vout.length := (List.getElem?_eq_some_iff.mp hf).1
      exact haveOutputsFrom_absent hv hh j bound
    · rw [← same.peekCoin]
      exact ih same.valid hl tx' hm p hc

end

section
variable {checks : OtherChecks} {pindex : BlockPosition} {st st' : Connecting} {i : ℕ}

/-- One iteration for a transaction with inputs. -/
lemma connectTx_connects (hl : i ≠ 0) {tx : CTransaction}
  (hv : Valid true st.view.toView) (hch : Checked tx) (hcb : tx.isCoinBase = false)
  (hse : ∀ p ∈ created tx pindex.nHeight, Settled st.view p.1)
  (ok : connectTx checks pindex i tx st = .ok st') :
  ∃ txundo, st'.vtxundo = st.vtxundo ++ [txundo] ∧
    TxConnects true pindex.nHeight st.view.peekCoin (tx, some txundo) ∧
    Performs st.view st'.view (txWrites pindex.nHeight tx) ∧
    ∀ o, Settled st.view o → Settled st'.view o := by
  obtain ⟨txfee, txundo, hc⟩ := connectTx_eq_ok hv hcb ok
  obtain ⟨_, inputs⟩ := hc.inputs
  obtain ⟨v, hs, updated⟩ := hc.updated
  obtain ⟨connects, hp, hk⟩ := updateCoins_connects hs.valid hch (fun p hm => (hse p hm).same hs)
    (by simp [hcb])
    (fun _ txin hm => by
      rw [hs.peekCoin]
      exact inputs.present txin hm) updated
  rw [hcb, hs.peekCoin] at connects
  refine ⟨txundo, ?_, connects, .after_same hs hp, fun o hse =>
    hk o (hse.same hs)⟩
  rw [hc.undo, if_neg hl]

lemma connectTxs_connects {txs : List CTransaction} (hla : i ≠ 0) (hv : Valid true st.view.toView)
  (hch : ∀ tx ∈ txs, Checked tx) (hcb : ∀ tx ∈ txs, tx.isCoinBase = false)
  (hs : ∀ tx ∈ txs, ∀ p ∈ created tx pindex.nHeight, Settled st.view p.1)
  (ok : connectTxs checks pindex i st txs = .ok st') :
  ∃ undos : List CTxUndo, st'.vtxundo = st.vtxundo ++ undos ∧ undos.length = txs.length ∧
    Connects true pindex.nHeight st.view.peekCoin (txs.zip (undos.map some)) ∧
    Performs st.view st'.view (blockWrites pindex.nHeight txs) := by
  induction txs generalizing st i with
  | nil =>
    cases ok
    exact ⟨[], by simp, rfl, trivial, .of_same (.refl hv)⟩
  | cons tx rest ih =>
    obtain ⟨st₁, hof, hor⟩ := bind_eq_ok.mp ok
    obtain ⟨txundo, undo, connects, hp, hk⟩ := connectTx_connects hla hv
      (hch tx (.head _)) (hcb tx (.head _))
      (hs tx (.head _)) hof
    obtain ⟨undos, undoRest, hl, hcr, hpr⟩ :=
      ih (Nat.succ_ne_zero i) hp.valid (fun tx' hm => hch tx' (.tail _ hm))
        (fun tx' hm => hcb tx' (.tail _ hm))
        (fun tx' hm p hc =>
          hk p.1 (hs tx' (.tail _ hm) p hc)) hor
    rw [hp.peekCoin] at hcr
    refine ⟨txundo :: undos, ?_, by simp [hl], ⟨connects, hcr⟩, hp.trans hpr⟩
    rw [undoRest, undo, append_assoc]
    rfl

/-- The whole loop of `ConnectBlock`, on a view that holds no output of the block. -/
lemma connectLoop_connects {block : CBlock} {v : CCoinsViewCache} (hv : Valid true v.toView)
  (hch : BlockChecked block)
  (ha : ∀ tx ∈ block.vtx, ∀ p ∈ created tx pindex.nHeight, v.peekCoin p.1 = none)
  (ok : connectTxs checks pindex 0 ⟨v, 0, 0, []⟩ block.vtx = .ok st) :
  st.vtxundo.length + 1 = block.vtx.length ∧
    Connects true pindex.nHeight v.peekCoin (undoneTxs block st.vtxundo) ∧
    Performs v st.view (blockWrites pindex.nHeight block.vtx) := by
  obtain ⟨coinbase, rest, vtx, isCoinBase, hcb⟩ := hch.coinbase
  have checkedTxs := hch.checked
  unfold undoneTxs
  rw [vtx] at ha ok checkedTxs ⊢
  obtain ⟨st₁, hof, hor⟩ := bind_eq_ok.mp ok
  obtain ⟨txundo, updated, -, undo⟩ := connectTx_coinbase isCoinBase hof
  have absentFirst := ha coinbase (.head _)
  obtain ⟨connects, hp, hk⟩ := updateCoins_connects hv (checkedTxs coinbase (.head _))
    (fun p hm => settled_of_absent hv (absentFirst p hm)) (fun _ => absentFirst)
    (by simp [isCoinBase]) updated
  have settled : ∀ tx ∈ rest, ∀ p ∈ created tx pindex.nHeight, Settled st₁.view p.1 := by
    intro tx hm p hc
    exact hk p.1 (settled_of_absent hv (ha tx (.tail _ hm) p hc))
  obtain ⟨undos, undoRest, hl, hcr, hpr⟩ :=
    connectTxs_connects one_ne_zero hp.valid
      (fun tx hm => checkedTxs tx (.tail _ hm)) hcb settled hor
  have all : st.vtxundo = undos := by rw [undoRest, undo, if_pos rfl, nil_append]
  rw [isCoinBase] at connects
  rw [hp.peekCoin] at hcr
  rw [all]
  exact ⟨by simp [hl], ⟨connects, hcr⟩, hp.trans hpr⟩

end

/-- `ConnectBlock` as a whole, for a block it looks for BIP30 violations in. -/
lemma connectBlock_connects (hv : Valid true v.toView) (hg : block.hash ≠ params.hashGenesisBlock)
  (he : enforcesBIP30 params pindex = true)
  (ok : connectBlock params checks block pindex v = .ok (undo, v')) :
  undo.length + 1 = block.vtx.length ∧
    Connects true pindex.nHeight v.peekCoin (undoneTxs block undo) ∧
    Performs v v' (blockWrites pindex.nHeight block.vtx) := by
  rcases connectBlock_eq_ok hv ok with ⟨genesis, -, -⟩ | hc
  · exact absurd genesis hg
  obtain ⟨v₀, st, coinbase, rest, vtx, hs, loop, -, undoEq, viewEq, bip30⟩ := hc.connected
  obtain ⟨v₁, sameBip30, none⟩ := bip30 he
  have absent := haveAnyOutput_absent sameBip30.valid none pindex.nHeight
  rw [sameBip30.peekCoin, ← hs.peekCoin] at absent
  rw [← vtx] at loop
  obtain ⟨hl, connects, hp⟩ := connectLoop_connects hs.valid hc.checked absent loop
  rw [undoEq, viewEq, ← hs.peekCoin]
  exact ⟨hl, connects, (Performs.after_same hs hp).before_same (setBestBlock_same hp.valid _)⟩

lemma disconnectBlock_undoes {blockUndo : List CTxUndo}
  (height : pindex.nHeight ≠ 0) (sane : Sane u) (hl : blockUndo.length + 1 = block.vtx.length)
  (connects : Connects true pindex.nHeight u (undoneTxs block blockUndo))
  (hv : Valid true v.toView) (hs : v.peekCoin = apply u (blockWrites pindex.nHeight block.vtx)) :
  ∃ v', disconnectBlock block blockUndo pindex v = .ok (.ok, v') ∧ Valid true v'.toView ∧
    v'.peekCoin = u := by
  obtain ⟨result, v', ok, -, hp, hc, -⟩ :=
    disconnectBlock_performs pindex hv hl (Connects.undoable height sane connects)
  rw [hc u connects hs] at ok
  refine ⟨v', ok, hp.valid, ?_⟩
  have undone := connects.undo
  rw [undoneTxs_fst hl] at undone
  rw [hp.peekCoin, hs, undone]

/-- Blocks are connected one after the other, and the undo data of each is kept. -/
def connectBlocks (params : ConsensusParams) (checks : OtherChecks) :
  List (CBlock × BlockPosition) → CCoinsViewCache →
    BlockCheck (List (List CTxUndo) × CCoinsViewCache)
  | [], v => .ok ([], v)
  | (block, pindex) :: blocks, v => do
    let (undo, v) ← connectBlock params checks block pindex v
    let (undos, v) ← connectBlocks params checks blocks v
    .ok (undo :: undos, v)

/-- Blocks are disconnected, the last one first, until one is not clean. -/
def disconnectBlocks : List ((CBlock × BlockPosition) × List CTxUndo) → CCoinsViewCache →
  Except CoinsError (DisconnectResult × CCoinsViewCache)
  | [], v => .ok (.ok, v)
  | ((block, pindex), undo) :: blocks, v => do
    let (result, v) ← disconnectBlocks blocks v
    if result = .ok then disconnectBlock block undo pindex v else .ok (result, v)

/-- However many blocks were connected, disconnecting them all is clean and restores the coins. -/
theorem disconnectBlocks_undoes (params : ConsensusParams) (checks : OtherChecks)
  (blocks : List (CBlock × BlockPosition)) {undos : List (List CTxUndo)}
  (each : ∀ b ∈ blocks, b.2.nHeight ≠ 0 ∧ b.1.hash ≠ params.hashGenesisBlock ∧
    enforcesBIP30 params b.2 = true) (hv : Valid true v.toView) (sane : Sane v.peekCoin)
  (ok : connectBlocks params checks blocks v = .ok (undos, v')) :
  ∃ v'', disconnectBlocks (blocks.zip undos) v' = .ok (.ok, v'') ∧ Valid true v''.toView ∧
    v''.peekCoin = v.peekCoin := by
  induction blocks generalizing v v' undos with
  | nil =>
    cases ok
    exact ⟨v, rfl, hv, rfl⟩
  | cons b blocks ih =>
    obtain ⟨⟨height, hg, he⟩, later⟩ := forall_mem_cons.mp each
    obtain ⟨⟨undo, v₁⟩, first, ok⟩ := bind_eq_ok.mp ok
    obtain ⟨⟨undos, v₂⟩, rest, ok⟩ := bind_eq_ok.mp ok
    cases ok
    obtain ⟨hl, connects, hp⟩ := connectBlock_connects hv hg he first
    have sane' := connects.sane height sane
    rw [undoneTxs_fst hl, ← hp.peekCoin] at sane'
    obtain ⟨v₃, undone, hv₃, same⟩ := ih later hp.valid sane' rest
    obtain ⟨v₄, last, restored⟩ :=
      disconnectBlock_undoes height sane hl connects hv₃ (same.trans hp.peekCoin)
    refine ⟨v₄, ?_, restored⟩
    rw [zip_cons_cons, disconnectBlocks, undone]
    exact last

def spentCoin : Coin := ⟨⟨50, [0x51]⟩, false, 1⟩

/-- A cache over a database with one coin. -/
def oneCoin : UtxoView where
  view := ⟨CacheLayer.new false, .bottom (CoinsViewBottom.new.insert ⟨7, 0⟩ spentCoin rfl)⟩
  valid := ⟨layerValid_empty rfl rfl, trivial⟩
  spendable := by
    intro o coin found
    by_cases same : o = ⟨7, 0⟩
    · subst same
      obtain rfl : spentCoin = coin := Option.some.inj found
      rfl
    · have missing : AList.lookup o (CoinsViewBottom.new.insert ⟨7, 0⟩ spentCoin rfl).data = none :=
        (AList.lookup_insert_ne same).trans (AList.lookup_empty o)
      cases missing.symm.trans found

def chainedTx (prevout : COutPoint) (outs : List CTxOut) (txid : Txid) : CTransaction :=
  ⟨[⟨prevout, [], 0, []⟩], outs, 1, 0, txid, txid⟩

def rewardTx (txid : Txid) : CTransaction :=
  ⟨[⟨⟨0, COutPoint.nullIndex⟩, [0x51, 0x51], 0, []⟩], [⟨10, [0x51]⟩], 1, 0, txid, txid⟩

/-- A coinbase, a transaction with an unspendable output, and one that spends its other output. -/
def chainedBlock : CBlock :=
  ⟨12, [rewardTx 20,
    chainedTx ⟨7, 0⟩ [⟨0, [opReturn]⟩, ⟨50, [0x51]⟩] 21,
    chainedTx ⟨21, 1⟩ [⟨40, [0x51]⟩] 22]⟩

lemma oneCoin_heights : ∀ o coin, oneCoin.view.peekCoin o = some coin → 1 ≤ coin.nHeight := by
  intro o coin hf
  by_cases hs : o = ⟨7, 0⟩
  · subst hs
    obtain rfl : spentCoin = coin := Option.some.inj hf
    exact Nat.le_refl 1
  · have missing : AList.lookup o (CoinsViewBottom.new.insert ⟨7, 0⟩ spentCoin rfl).data = none :=
      (AList.lookup_insert_ne hs).trans (AList.lookup_empty o)
    cases missing.symm.trans hf

/-- The block and one with a coinbase only. -/
def chainedBlocks : List (CBlock × BlockPosition) :=
  [(chainedBlock, ⟨[10, 0], 12⟩), (⟨13, [rewardTx 23]⟩, ⟨[10, 0, 12], 13⟩)]

theorem disconnectBlocks_undoes_chained_blocks : ∃ undos v v',
    connectBlocks ⟨1, 210000, 227931, 0, false⟩ .passing chainedBlocks oneCoin.view
      = .ok (undos, v) ∧
    v.peekCoin ⟨7, 0⟩ = none ∧ disconnectBlocks (chainedBlocks.zip undos) v = .ok (.ok, v') ∧
    v'.peekCoin ⟨7, 0⟩ = some spentCoin := by
  obtain ⟨v', ok, -, restored⟩ := disconnectBlocks_undoes ⟨1, 210000, 227931, 0, false⟩ .passing
    chainedBlocks (by decide) oneCoin.valid (oneCoin.sane oneCoin_heights) rfl
  exact ⟨_, _, v', rfl, rfl, ok, congrFun restored ⟨7, 0⟩⟩

/-- Disconnect undoes connect: a block that passed `CheckBlock`, the BIP30 check and the loop
of `ConnectBlock` is disconnected cleanly with the undo data collected, and the view shows
the coins it showed before. -/
theorem disconnect_undoes_connect (params : ConsensusParams) (checks : OtherChecks)
  (block : CBlock) (pindex : BlockPosition) (V : UtxoView) (st : Connecting)
  (heights : ∀ o coin, V.view.peekCoin o = some coin → 1 ≤ coin.nHeight)
  (height : 1 ≤ pindex.nHeight) (checked : checkBlock params checks block = .ok ())
  (bip30 : (haveAnyOutput V.view block.vtx).1 = false)
  (accepted : connectTxs checks pindex 0 ⟨(haveAnyOutput V.view block.vtx).2, 0, 0, []⟩ block.vtx
    = .ok st) : ∃ view', disconnectBlock block st.vtxundo pindex st.view = .ok (.ok, view') ∧
    Valid true view'.toView ∧ view'.peekCoin = V.view.peekCoin := by
  have same := haveAnyOutput_same V.valid block.vtx
  have absent := haveAnyOutput_absent V.valid bip30 pindex.nHeight
  rw [← same.peekCoin] at absent
  obtain ⟨hl, connects, hp⟩ :=
    connectLoop_connects same.valid (checkBlock_eq_ok checked) absent accepted
  have sane := V.sane heights
  rw [← same.peekCoin] at sane ⊢
  exact disconnectBlock_undoes (by omega) sane hl connects hp.valid hp.peekCoin

theorem disconnect_undoes_chained_block : ∃ st view', connectTxs .passing ⟨[10, 11], 12⟩ 0
      ⟨(haveAnyOutput oneCoin.view chainedBlock.vtx).2, 0, 0, []⟩ chainedBlock.vtx = .ok st ∧
    st.view.peekCoin ⟨7, 0⟩ = none ∧
    disconnectBlock chainedBlock st.vtxundo ⟨[10, 11], 12⟩ st.view = .ok (.ok, view') ∧
    view'.peekCoin ⟨7, 0⟩ = some spentCoin := by
  obtain ⟨view', ok, -, restored⟩ := disconnect_undoes_connect ⟨1, 210000, 227931, 0, false⟩ .passing
    chainedBlock ⟨[10, 11], 12⟩ oneCoin _ oneCoin_heights (by decide) rfl rfl rfl
  exact ⟨_, view', rfl, rfl, ok, congrFun restored ⟨7, 0⟩⟩

end UtxoUndo
