import Andaluzcoin.ConnectBlock
import Andaluzcoin.LayeredMap

/-!
# Blocks as updates of the set of unspent coins

A block read as a list of writes to a map from outpoints to coins, and its undo data
as the list of writes that reverts it. What a transaction needs of the map is that it
holds the coins it spends and nothing at the outpoints it creates; then undoing the
transactions in reverse order restores the map.
-/

namespace UtxoSet

open Transaction ConnectBlock LayeredMap List

variable {bip30 : Bool} {tx : CTransaction} {undone : List UndoneTx} {u : Utxo} {nHeight : ℕ}

abbrev Utxo := COutPoint → Option Coin

abbrev Writes := List (COutPoint × Option Coin)

/-- The coins made by the outputs from number `i` on: unspendable ones make none. -/
def createdFrom (tx : CTransaction) (nHeight i : ℕ) : List CTxOut → List (COutPoint × Coin)
  | [] => []
  | out :: rest =>
    if isUnspendable out.scriptPubKey then createdFrom tx nHeight (i + 1) rest
    else (⟨tx.hash, i⟩, ⟨out, tx.isCoinBase, nHeight⟩) :: createdFrom tx nHeight (i + 1) rest

def created (tx : CTransaction) (nHeight : ℕ) : List (COutPoint × Coin) :=
  createdFrom tx nHeight 0 tx.vout

def prevouts (txins : List CTxIn) : List COutPoint := txins.map CTxIn.prevout

def spent (tx : CTransaction) : List COutPoint := if tx.isCoinBase then [] else prevouts tx.vin

def spends (outpoints : List COutPoint) : Writes := outpoints.map fun o => (o, none)

def txWrites (nHeight : ℕ) (tx : CTransaction) : Writes :=
  spends (spent tx) ++ puts (created tx nHeight)

def blockWrites (nHeight : ℕ) (txs : List CTransaction) : Writes := txs.flatMap (txWrites nHeight)

/-- A transaction with its undo data; the coinbase has none. -/
abbrev UndoneTx := CTransaction × Option CTxUndo

/-- The transactions of a block with their undo data. -/
def undoneTxs (block : CBlock) (blockUndo : List CTxUndo) : List UndoneTx :=
  block.vtx.zip (none :: blockUndo.map some)

lemma undoneTxs_fst {block : CBlock} {blockUndo : List CTxUndo}
  (hl : blockUndo.length + 1 = block.vtx.length) :
  (undoneTxs block blockUndo).map Prod.fst = block.vtx := by
  rw [undoneTxs, map_fst_zip]
  simp only [length_cons, length_map]
  omega

def taken : UndoneTx → List (COutPoint × Coin)
  | (_, none) => []
  | (tx, some coins) => (prevouts tx.vin).zip coins

def txUndoWrites (nHeight : ℕ) (undone : UndoneTx) : Writes :=
  takes (created undone.1 nHeight) ++ puts (taken undone).reverse

def blockUndoWrites (nHeight : ℕ) (undone : List UndoneTx) : Writes :=
  undone.reverse.flatMap (txUndoWrites nHeight)

/-- There is one coin for each input, and none for a coinbase. -/
def Shaped : UndoneTx → Prop
  | (tx, none) => tx.isCoinBase = true
  | (tx, some coins) => tx.isCoinBase = false ∧ coins.length = tx.vin.length

/-- The undo data has the coins of the inputs, all different, and the outputs are new. A
coinbase may overwrite coins where BIP30 was not enforced. -/
structure TxConnects (bip30 : Bool) (nHeight : ℕ) (u : Utxo) (undone : UndoneTx) : Prop where
  shaped : Shaped undone
  held : ∀ p ∈ taken undone, u p.1 = some p.2
  nodup : (spent undone.1).Nodup
  outputs : ∀ out ∈ undone.1.vout, out.isNull = false
  free : bip30 = true ∨ undone.1.isCoinBase = false →
    ∀ p ∈ created undone.1 nHeight, apply u (spends (spent undone.1)) p.1 = none

def Connects (bip30 : Bool) (nHeight : ℕ) (u : Utxo) : List UndoneTx → Prop
  | [] => True
  | undone :: rest =>
    TxConnects bip30 nHeight u undone ∧
      Connects bip30 nHeight (apply u (txWrites nHeight undone.1)) rest

lemma blockWrites_cons (nHeight : ℕ) (first : UndoneTx) (rest : List UndoneTx) :
  blockWrites nHeight ((first :: rest).map Prod.fst)
    = txWrites nHeight first.1 ++ blockWrites nHeight (rest.map Prod.fst) := rfl

lemma blockUndoWrites_cons (nHeight : ℕ) (first : UndoneTx) (rest : List UndoneTx) :
  blockUndoWrites nHeight (first :: rest)
    = blockUndoWrites nHeight rest ++ txUndoWrites nHeight first := by
  simp [blockUndoWrites]

lemma connects_append {first second : List UndoneTx} : Connects bip30 nHeight u (first ++ second) ↔
    Connects bip30 nHeight u first ∧
      Connects bip30 nHeight (apply u (blockWrites nHeight (first.map Prod.fst))) second := by
  induction first generalizing u with
  | nil => simp [Connects, blockWrites, apply, writeAll]
  | cons undone rest ih =>
    rw [cons_append, blockWrites_cons, apply_append, Connects, Connects, ih, and_assoc]

/-- A coin that `AddCoin` stores and that carries its own height. -/
structure Restorable (coin : Coin) : Prop where
  unspent : coin.isSpent = false
  spendable : isUnspendable coin.out.scriptPubKey = false
  height : coin.nHeight ≠ 0

def Sane (u : Utxo) : Prop := ∀ o coin, u o = some coin → Restorable coin

lemma Shaped.keys {undone : UndoneTx} (shaped : Shaped undone) :
  (taken undone).map Prod.fst = spent undone.1 := by
  obtain ⟨tx, _ | coins⟩ := undone
  · have coinbase : tx.isCoinBase = true := shaped
    simp [taken, spent, coinbase]
  · have notCoinBase : tx.isCoinBase = false := shaped.1
    have length := shaped.2
    simp [taken, spent, notCoinBase, map_fst_zip, prevouts, length]

lemma takes_eq_spends (entries : List (COutPoint × Coin)) :
  takes entries = spends (entries.map Prod.fst) := by
  simp [takes, spends]

lemma spends_keys (outpoints : List COutPoint) : (spends outpoints).map Prod.fst = outpoints := by
  simp [spends, Function.comp_def]

lemma apply_spends {outpoints : List COutPoint} {o : COutPoint}
  (hl : o ∈ outpoints) : apply u (spends outpoints) o = none := by
  refine apply_of_forall (by rwa [spends_keys]) fun p hm _ => ?_
  obtain ⟨q, -, rfl⟩ := mem_map.mp hm
  rfl

section
variable {tx : CTransaction} {nHeight i : ℕ} {p : COutPoint × Coin} {outs : List CTxOut}

lemma mem_createdFrom (hm : p ∈ createdFrom tx nHeight i outs) :
  ∃ j out, outs[j]? = some out ∧ isUnspendable out.scriptPubKey = false ∧
    p = (⟨tx.hash, i + j⟩, ⟨out, tx.isCoinBase, nHeight⟩) := by
  induction outs generalizing i with
  | nil => cases hm
  | cons out rest ih =>
    have later : p ∈ createdFrom tx nHeight (i + 1) rest →
      ∃ j out', (out :: rest)[j]? = some out' ∧ isUnspendable out'.scriptPubKey = false ∧
        p = (⟨tx.hash, i + j⟩, ⟨out', tx.isCoinBase, nHeight⟩) := by
      intro hm
      obtain ⟨j, out', hf, hs, rfl⟩ := ih hm
      exact ⟨j + 1, out', hf, hs, by rw [add_right_comm, add_assoc]⟩
    unfold createdFrom at hm
    split at hm
    · exact later hm
    · next hs =>
      rcases mem_cons.mp hm with rfl | hm
      · exact ⟨0, out, rfl, by simpa using hs, rfl⟩
      · exact later hm

lemma createdFrom_index (hm : p ∈ createdFrom tx nHeight i outs) : i ≤ p.1.n := by
  obtain ⟨j, out, -, -, rfl⟩ := mem_createdFrom hm
  exact Nat.le_add_right i j

lemma createdFrom_ne (hm : p ∈ createdFrom tx nHeight (i + 1) outs) : p.1 ≠ ⟨tx.hash, i⟩ := by
  intro hs
  have index := createdFrom_index hm
  have : p.1.n = i := by rw [hs]
  omega

lemma createdFrom_nodup (outs : List CTxOut) :
  ((createdFrom tx nHeight i outs).map Prod.fst).Nodup := by
  induction outs generalizing i with
  | nil => exact nodup_nil
  | cons out rest ih =>
    unfold createdFrom
    split
    · exact ih
    rw [map_cons, nodup_cons]
    refine ⟨fun hm => ?_, ih⟩
    obtain ⟨p, hl, hs⟩ := mem_map.mp hm
    exact createdFrom_ne hl hs

/-- Every coin a transaction above genesis creates can be restored from undo data. -/
lemma created_restorable (ho : ∀ out ∈ tx.vout, out.isNull = false) (height : nHeight ≠ 0)
  (hm : p ∈ created tx nHeight) : Restorable p.2 := by
  obtain ⟨j, out, hf, hs, rfl⟩ := mem_createdFrom hm
  exact ⟨ho out (mem_of_getElem? hf), hs, height⟩

end

/-- What holds of all coins a transaction creates holds of all coins it writes. -/
lemma txWrites_forall {P : Coin → Prop} (each : ∀ p ∈ created tx nHeight, P p.2) :
  ∀ p ∈ txWrites nHeight tx, ∀ coin, p.2 = some coin → P coin := by
  intro p hm coin hf
  rcases mem_append.mp hm with spending | putting
  · obtain ⟨o, -, rfl⟩ := mem_map.mp spending
    cases hf
  · obtain ⟨q, hc, rfl⟩ := mem_map.mp putting
    cases hf
    exact each q hc

lemma Sane.txWrites (sane : Sane u) (height : nHeight ≠ 0)
  (ho : ∀ out ∈ tx.vout, out.isNull = false) : Sane (apply u (UtxoSet.txWrites nHeight tx)) :=
  apply_preserves sane (txWrites_forall fun _ hc =>
    created_restorable ho height hc)

lemma Connects.sane (height : nHeight ≠ 0) (sane : Sane u)
  (connects : Connects bip30 nHeight u undone) :
  Sane (apply u (blockWrites nHeight (undone.map Prod.fst))) := by
  induction undone generalizing u with
  | nil => exact sane
  | cons first rest ih =>
    rw [blockWrites_cons, apply_append]
    exact ih (sane.txWrites height connects.1.outputs) connects.2

lemma Connects.outputs (connects : Connects bip30 nHeight u undone) :
  ∀ tx ∈ undone.map Prod.fst, ∀ out ∈ tx.vout, out.isNull = false := by
  induction undone generalizing u with
  | nil => simp
  | cons first rest ih =>
    intro tx hm
    rcases mem_cons.mp hm with rfl | hl
    · exact connects.1.outputs
    · exact ih connects.2 tx hl

lemma Connects.covered (connects : Connects bip30 nHeight u undone) :
  ∀ o ∈ (blockWrites nHeight (undone.map Prod.fst)).map Prod.fst,
    o ∈ (blockUndoWrites nHeight undone).map Prod.fst := by
  induction undone generalizing u with
  | nil => simp [blockWrites]
  | cons first rest ih =>
    intro o written
    rw [blockUndoWrites_cons, map_append, mem_append]
    rw [blockWrites_cons, map_append, mem_append] at written
    rcases written with hh | hl
    · right
      rw [UtxoSet.txWrites, map_append, spends_keys, puts_keys, ← connects.1.shaped.keys] at hh
      rw [txUndoWrites, map_append, takes_keys, puts_keys, map_reverse]
      simpa [or_comm] using hh
    · exact Or.inl (ih connects.2 o hl)

/-- The map after a transaction, in the form of the library's undo theorem. -/
lemma TxConnects.txWrites_eq {undone : UndoneTx} (connects : TxConnects bip30 nHeight u undone) :
  apply u (txWrites nHeight undone.1)
    = apply (apply u (takes (taken undone))) (puts (created undone.1 nHeight)) := by
  rw [txWrites, apply_append, takes_eq_spends, connects.shaped.keys]

lemma TxConnects.undo {undone : UndoneTx} (connects : TxConnects true nHeight u undone) :
  apply (apply u (txWrites nHeight undone.1)) (txUndoWrites nHeight undone) = u := by
  rw [connects.txWrites_eq]
  refine apply_undo connects.held ?_ ?_ (reverse_perm _)
  · rw [connects.shaped.keys]
    exact connects.nodup
  · rw [takes_eq_spends, connects.shaped.keys]
    exact connects.free (Or.inl rfl)

/-- Undoing a block restores the coins it was connected to. -/
theorem Connects.undo (connects : Connects true nHeight u undone) :
  apply (apply u (blockWrites nHeight (undone.map Prod.fst))) (blockUndoWrites nHeight undone)
    = u := by
  induction undone generalizing u with
  | nil => rfl
  | cons first rest ih =>
    rw [blockWrites_cons, blockUndoWrites_cons, apply_append, apply_append, ih connects.2, connects.1.undo]

end UtxoSet
