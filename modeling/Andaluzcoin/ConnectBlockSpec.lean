import Andaluzcoin.ConnectBlock
import Andaluzcoin.TxVerifySpec

/-!
# What a connected block has passed

Reading `CheckBlock` and `ConnectBlock` backwards: a block that was connected has
one coinbase, in front, and its transactions were checked one after the other
against the view that the transactions before them left. The lookups of these
checks change nothing a view shows.
-/

namespace ConnectBlockSpec

open Transaction Coins CoinsInvariant Outcome TxVerify TxVerifySpec ConnectBlock Failure

variable {block : CBlock} {params : ConsensusParams} {checks : OtherChecks} {α : Type}
  {check : TxCheck α} {a : α}

lemma inBlock_eq_ok : inBlock check = .ok a ↔ check = .ok a := mapError_eq_ok

lemma inBlock_never (hn : Never overflow check) : Never overflow (inBlock check) := by
  refine never_mapError (fun failure hs => ?_) hn
  cases failure <;> first | rfl | cases hs

lemma throwing_eq_ok {op : Except CoinsError α} : throwing op = .ok a ↔ op = .ok a := mapError_eq_ok

lemma throwing_never (op : Except CoinsError α) : Never overflow (throwing op) := by
  cases op with
  | ok a => exact never_ok _ a
  | error e => exact never_error (by simp)

lemma rejectFor_never (result : BlockValidationResult) (reason : Option String) :
  Never overflow (rejectFor result reason) := by
  cases reason with
  | none => exact never_ok _ _
  | some reason => exact never_error (by simp)

/-- What `CheckBlock` guarantees: a coinbase first and only there, every transaction checked. -/
structure BlockChecked (block : CBlock) : Prop where
  coinbase : ∃ tx rest, block.vtx = tx :: rest ∧ tx.isCoinBase = true ∧
    ∀ tx' ∈ rest, tx'.isCoinBase = false
  checked : ∀ tx ∈ block.vtx, Checked tx

lemma checkBlock_eq_ok (ok : checkBlock params checks block = .ok ()) : BlockChecked block := by
  obtain ⟨_, -, ok⟩ := bind_eq_ok.mp ok
  obtain ⟨_, -, ok⟩ := bind_eq_ok.mp ok
  obtain ⟨_, -, ok⟩ := bind_eq_ok.mp ok
  obtain ⟨_, -, ok⟩ := bind_eq_ok.mp ok
  obtain ⟨first, ok⟩ := unless_eq_ok.mp ok
  obtain ⟨others, ok⟩ := unless_eq_ok.mp ok
  obtain ⟨_, txs, -⟩ := bind_eq_ok.mp ok
  refine ⟨?_, fun tx hm => ?_⟩
  · cases h : block.vtx with
    | nil => simp [h] at first
    | cons tx rest =>
      refine ⟨tx, rest, rfl, by simpa [h] using first, fun tx' hm => ?_⟩
      rw [h, List.tail_cons, List.any_eq_false] at others
      simpa using others tx' hm
  · exact checkTransaction_eq_ok (inBlock_eq_ok.mp (forM_eq_ok txs tx hm))

lemma checkBlock_never (params : ConsensusParams) (checks : OtherChecks) (block : CBlock) :
  Never overflow (checkBlock params checks block) := by
  refine never_unless fun _ => ?_
  refine never_unless fun _ => ?_
  refine never_bind (rejectFor_never _ _) fun _ _ => ?_
  refine never_unless fun _ => ?_
  refine never_unless fun _ => ?_
  refine never_unless fun _ => ?_
  refine never_bind (never_forM fun tx _ => inBlock_never (checkTransaction_never tx)) fun _ _ => ?_
  exact never_failIf _ (by simp)

section
variable {strict : Bool} {v : CCoinsViewCache}

variable (hv : Valid strict v.toView)
include hv

lemma accessInputs_spec (txins : List CTxIn) :
  (accessInputs v txins).1 = inputCoins v txins ∧ SameView strict v (accessInputs v txins).2 := by
  induction txins generalizing v with
  | nil => exact ⟨rfl, SameView.refl hv⟩
  | cons txin rest ih =>
    have looksUp := accessCoin_looksUp hv txin.prevout
    have same := SameView.of_looksUp looksUp
    obtain ⟨coins, hsl⟩ := ih same.valid
    refine ⟨?_, same.trans hsl⟩
    rw [inputCoins_congr same] at coins
    have found : (v.accessCoin txin.prevout).1 = (v.peekCoin txin.prevout).getD Coin.empty :=
      looksUp.answer
    simp only [accessInputs, coins, inputCoins_cons, found]

lemma haveOutputsFrom_same (txid : Txid)
  (i : ℕ) (outs : List CTxOut) : SameView strict v (haveOutputsFrom txid v i outs).2 := by
  induction outs generalizing v i with
  | nil => exact .refl hv
  | cons out rest ih =>
    have same := SameView.of_looksUp (haveCoin_looksUp hv ⟨txid, i⟩)
    exact same.trans (ih same.valid (i + 1))

lemma haveAnyOutput_same (txs : List CTransaction) : SameView strict v (haveAnyOutput v txs).2 := by
  induction txs generalizing v with
  | nil => exact .refl hv
  | cons tx rest ih =>
    have same := haveOutputsFrom_same hv tx.hash 0 tx.vout
    exact same.trans (ih same.valid)

end

section
variable {strict : Bool} {v : CCoinsViewCache}

/-- Reading the best block copies hashes between the caches and no coins. -/
lemma getBestBlock_looksUp {v : CoinsView} (hv : Valid strict v) :
  LooksUp strict v v.getBestBlock.1 v.getBestBlock := by
  induction v with
  | bottom b => exact ⟨rfl, hv, rfl, rfl⟩
  | cache l base ih =>
    unfold CoinsView.getBestBlock
    split
    · have under := (ih hv.2).under hv
      refine ⟨rfl, ⟨under.1.1.congr rfl rfl, under.1.2⟩, ?_, under.2.2⟩
      rw [← under.2.1]
      simp only [views, List.cons.injEq, and_true]
      exact peekCoin_congr rfl _
    · exact ⟨rfl, hv, rfl, rfl⟩

lemma setBestBlock_same (hv : Valid strict v.toView)
  (hashBlock : Uint256) : SameView strict v (v.setBestBlock hashBlock) :=
  ⟨⟨hv.1.congr rfl rfl, hv.2⟩, congrArg (· :: views v.base) (peekCoin_congr rfl v.base), rfl⟩

lemma getBestBlock_same (hv : Valid strict v.toView) : SameView strict v v.getBestBlock.2 := by
  unfold CCoinsViewCache.getBestBlock
  split
  · have under := (getBestBlock_looksUp hv.2).under (l := v.layer) hv
    have same : SameView strict v ⟨v.layer, v.base.getBestBlock.2⟩ :=
      ⟨under.1, under.2.1, under.2.2⟩
    exact same.trans (setBestBlock_same same.valid _)
  · exact .refl hv

end

section
variable {strict : Bool} {checks : OtherChecks} {pindex : BlockPosition} {i : ℕ}
  {tx : CTransaction} {st st' : Connecting}

/-- What the loop body of `ConnectBlock` has passed for a transaction with inputs. -/
structure TxConnected (strict : Bool) (pindex : BlockPosition) (i : ℕ) (tx : CTransaction)
  (st st' : Connecting) (txfee : Int) (txundo : CTxUndo) : Prop where
  inputs : ∃ v, InputsChecked strict tx st.view txfee v
  fees : st'.nFees = st.nFees + txfee
  feesRange : moneyRange st'.nFees = true
  updated : ∃ v, SameView strict st.view v ∧
    updateCoins tx v pindex.nHeight = .ok (txundo, st'.view)
  undo : st'.vtxundo = if i = 0 then st.vtxundo else st.vtxundo ++ [txundo]

lemma connectTx_coinbase (hc : tx.isCoinBase = true)
  (ok : connectTx checks pindex i tx st = .ok st') :
  ∃ txundo, updateCoins tx st.view pindex.nHeight = .ok (txundo, st'.view) ∧ st'.nFees = st.nFees ∧
    st'.vtxundo = if i = 0 then st.vtxundo else st.vtxundo ++ [txundo] := by
  unfold connectTx at ok
  rw [hc] at ok
  obtain ⟨st₁, start, ok⟩ := bind_eq_ok.mp ok
  obtain rfl : st = st₁ := Except.ok.inj start
  obtain ⟨_, -, ok⟩ := bind_eq_ok.mp ok
  obtain ⟨_, -, ok⟩ := bind_eq_ok.mp ok
  obtain ⟨⟨txundo, view⟩, updated, ok⟩ := bind_eq_ok.mp ok
  cases ok
  exact ⟨txundo, updated, rfl, rfl⟩

variable (hv : Valid strict st.view.toView) (hcb : tx.isCoinBase = false)
include hv hcb

lemma checkInputs_eq_ok (ok : checkInputs checks pindex tx st = .ok st') :
  ∃ txfee v, InputsChecked strict tx st.view txfee v ∧
    SameView strict st.view st'.view ∧ moneyRange st'.nFees = true ∧
    st'.nFees = st.nFees + txfee ∧ st'.vtxundo = st.vtxundo := by
  obtain ⟨⟨txfee, v⟩, inputs, ok⟩ := bind_eq_ok.mp ok
  obtain ⟨nFees, added, ok⟩ := bind_eq_ok.mp ok
  obtain ⟨hfr, ok⟩ := unless_eq_ok.mp ok
  obtain ⟨_, -, ok⟩ := bind_eq_ok.mp ok
  cases ok
  have checked := checkTxInputs_eq_ok hv hcb (inBlock_eq_ok.mp inputs)
  have accessed := (accessInputs_spec checked.same.valid tx.vin).2
  exact ⟨txfee, v, checked, checked.same.trans accessed,
    by simpa using hfr, addAmount_eq_ok added, rfl⟩

lemma connectTx_eq_ok (ok : connectTx checks pindex i tx st = .ok st') :
  ∃ txfee txundo, TxConnected strict pindex i tx st st' txfee txundo := by
  unfold connectTx at ok
  rw [hcb] at ok
  obtain ⟨st₁, inputs, ok⟩ := bind_eq_ok.mp ok
  obtain ⟨_, -, ok⟩ := bind_eq_ok.mp ok
  obtain ⟨_, -, ok⟩ := bind_eq_ok.mp ok
  obtain ⟨⟨txundo, view⟩, updated, ok⟩ := bind_eq_ok.mp ok
  cases ok
  obtain ⟨txfee, v, hc, hs, hfr, fees, undo⟩ := checkInputs_eq_ok hv hcb inputs
  have accessed := (accessInputs_spec hs.valid tx.vin).2
  refine ⟨txfee, txundo, ⟨v, hc⟩, fees, hfr, ⟨_, hs.trans accessed, updated⟩, ?_⟩
  rw [undo]

end

/-- What `ConnectBlock` has passed for a block other than genesis. -/
structure BlockConnected (strict : Bool) (params : ConsensusParams) (checks : OtherChecks)
  (block : CBlock) (pindex : BlockPosition) (view : CCoinsViewCache) (undo : List CTxUndo)
  (view' : CCoinsViewCache) : Prop where
  checked : BlockChecked block
  notGenesis : pindex.ancestors ≠ []
  connected : ∃ v₀ st coinbase rest, block.vtx = coinbase :: rest ∧ SameView strict view v₀ ∧
    connectTxs checks pindex 0 ⟨v₀, 0, 0, []⟩ (coinbase :: rest) = .ok st ∧
    totalOut coinbase.vout ≤ st.nFees + getBlockSubsidy params pindex.nHeight ∧
    undo = st.vtxundo ∧ view' = st.view.setBestBlock pindex.blockHash ∧
    (enforcesBIP30 params pindex = true →
      ∃ v, SameView strict view v ∧ (haveAnyOutput v block.vtx).1 = false)

lemma connectBlock_eq_ok {strict : Bool} {pindex : BlockPosition} {view view' : CCoinsViewCache}
  {undo : List CTxUndo} (hv : Valid strict view.toView)
  (ok : connectBlock params checks block pindex view = .ok (undo, view')) :
  (block.hash = params.hashGenesisBlock ∧ undo = [] ∧ SameView strict view view') ∨
    BlockConnected strict params checks block pindex view undo view' := by
  obtain ⟨_, -, ok⟩ := bind_eq_ok.mp ok
  obtain ⟨_, checkedOk, ok⟩ := bind_eq_ok.mp ok
  have checked := checkBlock_eq_ok (mapError_eq_ok.mp checkedOk)
  have same := getBestBlock_same hv
  obtain ⟨_, -, ok⟩ := bind_eq_ok.mp ok
  split at ok
  · next genesis =>
    cases ok
    exact Or.inl ⟨genesis, rfl, same.trans (setBestBlock_same same.valid _)⟩
  right
  obtain ⟨pprev, ok⟩ := unless_eq_ok.mp ok
  obtain ⟨bip30, ok⟩ := unless_eq_ok.mp ok
  obtain ⟨st, loop, ok⟩ := bind_eq_ok.mp ok
  obtain ⟨blockReward, reward, ok⟩ := bind_eq_ok.mp ok
  obtain rfl := addAmount_eq_ok reward
  cases hvtx : block.vtx with
  | nil =>
    rw [hvtx] at ok
    cases ok
  | cons coinbase rest =>
    rw [hvtx] at ok
    obtain ⟨paid, valueOut, ok⟩ := bind_eq_ok.mp ok
    obtain ⟨amount, ok⟩ := unless_eq_ok.mp ok
    cases ok
    rw [decide_eq_false_iff_not] at amount
    have paidEq := (sumOutputs_eq_ok valueOut).1
    have sameBip30 : SameView strict view
      (if enforcesBIP30 params pindex = true then haveAnyOutput view.getBestBlock.2 block.vtx
        else (false, view.getBestBlock.2)).2 := by
      split
      · exact same.trans (haveAnyOutput_same same.valid block.vtx)
      · exact same
    refine ⟨checked, by simpa using pprev, _, st, coinbase, rest, hvtx, sameBip30,
      by rwa [← hvtx], by omega, rfl, rfl, fun he => ⟨view.getBestBlock.2, same, ?_⟩⟩
    rwa [if_pos he] at bip30

end ConnectBlockSpec
