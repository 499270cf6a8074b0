import Andaluzcoin.ParentTree
import Andaluzcoin.UtxoUndo

/-!
# The block tree and its sets of unspent coins

The block index with the block and undo data on disk, read as a tree of parent
pointers. Every block stands for a set of unspent coins, that of its parent changed by
its transactions; genesis adds none. Undoing a branch leads back to the set of the block
it forks from, unless one of its coinbases has overwritten an unspent coin.
-/

namespace BlockTree

open Transaction ConnectBlock LayeredMap ParentTree UtxoSet UtxoUndo UtxoWrites List Option

/-- A `CBlockIndex` with the block and the undo data it points to. -/
structure StoredBlock where
  pprev : Option Uint256
  nHeight : ℕ
  block : CBlock
  undo : List CTxUndo

open StoredBlock

namespace StoredBlock

def writes (b : StoredBlock) : Writes := blockWrites b.nHeight b.block.vtx

def undone (b : StoredBlock) : List UndoneTx := undoneTxs b.block b.undo

def undoWrites (b : StoredBlock) : Writes := blockUndoWrites b.nHeight b.undone

end StoredBlock

section
variable (blockIndex : Uint256 → Option StoredBlock)

def pprev (hash : Uint256) : Option Uint256 := (blockIndex hash).bind StoredBlock.pprev

def nHeight (hash : Uint256) : ℕ := (blockIndex hash).elim 0 StoredBlock.nHeight

/-- The unspent coins after a block at height `n`. -/
def coinsAt : ℕ → Uint256 → Utxo
  | 0, _ => fun _ => none
  | n + 1, hash =>
    match blockIndex hash with
    | none => fun _ => none
    | some b => b.pprev.elim (fun _ => none) fun p => apply (coinsAt n p) b.writes

def utxo (hash : Uint256) : Utxo := coinsAt blockIndex (nHeight blockIndex hash) hash

/-- What `DisconnectBlock` reads of a block's index entry. -/
def position (hash : Uint256) : BlockPosition :=
  ⟨((pprev blockIndex hash).elim [] (trail (pprev blockIndex) (nHeight blockIndex hash))).reverse,
    hash⟩

end

/-- A tree of blocks under one genesis block that were connected to their parents. -/
structure Tree where
  blockIndex : Uint256 → Option StoredBlock
  genesis : Uint256
  null : blockIndex 0 = none
  rooted : ∀ hash b, blockIndex hash = some b →
    (b.pprev = none ∧ b.nHeight = 0 ∧ hash = genesis) ∨
      ∃ p b', b.pprev = some p ∧ blockIndex p = some b' ∧ b.nHeight = b'.nHeight + 1
  length : ∀ hash b p, blockIndex hash = some b → b.pprev = some p →
    b.undo.length + 1 = b.block.vtx.length
  connects : ∀ hash b p, blockIndex hash = some b → b.pprev = some p →
    Connects false b.nHeight (utxo blockIndex p) b.undone

namespace Tree

variable (t : Tree)

def Contains (hash : Uint256) : Prop := (t.blockIndex hash).isSome = true

def pprev (hash : Uint256) : Option Uint256 := BlockTree.pprev t.blockIndex hash

def nHeight (hash : Uint256) : ℕ := BlockTree.nHeight t.blockIndex hash

def utxo (hash : Uint256) : Utxo := BlockTree.utxo t.blockIndex hash

def writesAt (hash : Uint256) : Writes := (t.blockIndex hash).elim [] StoredBlock.writes

def undoWritesAt (hash : Uint256) : Writes := (t.blockIndex hash).elim [] StoredBlock.undoWrites

/-- No coinbase of the block overwrote an unspent coin. -/
def NoOverwrite (hash : Uint256) : Prop :=
  ∀ b p, t.blockIndex hash = some b → b.pprev = some p →
    ∀ tx ∈ b.block.vtx, tx.isCoinBase = true → ∀ q ∈ created tx b.nHeight, t.utxo p q.1 = none

variable {t} {hash p : Uint256} {b : StoredBlock}

lemma nHeight_eq (hf : t.blockIndex hash = some b) : t.nHeight hash = b.nHeight := by
  simp [nHeight, BlockTree.nHeight, hf]

lemma pprev_eq (hf : t.blockIndex hash = some b) : t.pprev hash = b.pprev := by
  simp [pprev, BlockTree.pprev, hf]

lemma stored_of_pprev (edge : t.pprev hash = some p) :
  ∃ b b', t.blockIndex hash = some b ∧ b.pprev = some p ∧ t.blockIndex p = some b' ∧
    b.nHeight = b'.nHeight + 1 := by
  obtain ⟨b, hf, hp⟩ := bind_eq_some_iff.mp edge
  rcases t.rooted hash b hf with ⟨none, -, -⟩ | ⟨p', b', hp', hfp, height⟩
  · rw [none] at hp
    cases hp
  · obtain rfl : p = p' := Option.some.inj (hp.symm.trans hp')
    exact ⟨b, b', hf, hp, hfp, height⟩

lemma graded (t : Tree) : Graded t.pprev t.nHeight := by
  intro hash p edge
  obtain ⟨b, b', hf, -, hfp, height⟩ := stored_of_pprev edge
  rw [nHeight_eq hf, nHeight_eq hfp, height]

lemma contains_of_pprev (edge : t.pprev hash = some p) : t.Contains hash ∧ t.Contains p := by
  obtain ⟨b, b', hf, -, hfp, -⟩ := stored_of_pprev edge
  exact ⟨by simp [Contains, hf], by simp [Contains, hfp]⟩

lemma genesis_ancestor (contains : t.Contains hash) : Ancestor t.pprev t.genesis hash := by
  generalize height : t.nHeight hash = n
  induction n generalizing hash with
  | zero =>
    obtain ⟨b, hf⟩ := isSome_iff_exists.mp contains
    rcases t.rooted hash b hf with ⟨-, -, rfl⟩ | ⟨p, b', -, -, ha⟩
    · exact .refl _
    · rw [nHeight_eq hf] at height
      omega
  | succ n ih =>
    obtain ⟨b, hf⟩ := isSome_iff_exists.mp contains
    rw [nHeight_eq hf] at height
    rcases t.rooted hash b hf with ⟨-, zero, -⟩ | ⟨p, b', hp, hfp, ha⟩
    · omega
    have edge : t.pprev hash = some p := (pprev_eq hf).trans hp
    refine .step edge (ih (by simp [Contains, hfp]) ?_)
    rw [nHeight_eq hfp]
    omega

lemma nHeight_genesis : t.nHeight t.genesis = 0 := by
  cases found : t.blockIndex t.genesis with
  | none => simp [nHeight, BlockTree.nHeight, found]
  | some b =>
    rcases t.rooted t.genesis b found with ⟨-, height, -⟩ | ⟨p, b', hp, -, -⟩
    · rw [nHeight_eq found, height]
    -- genesis would be its own proper ancestor
    have edge : t.pprev t.genesis = some p := (pprev_eq found).trans hp
    have below := (genesis_ancestor (contains_of_pprev edge).2).height_le t.graded
    have grown := t.graded _ _ edge
    omega

lemma ne_zero_of_contains (contains : t.Contains hash) : hash ≠ 0 := by
  rintro rfl
  rw [Contains, t.null] at contains
  cases contains

section

lemma utxo_step (hf : t.blockIndex hash = some b) (hp : b.pprev = some p) :
  t.utxo hash = apply (t.utxo p) b.writes := by
  have edge : t.pprev hash = some p := (pprev_eq hf).trans hp
  have height := t.graded hash p edge
  simp only [nHeight] at height
  simp only [utxo, BlockTree.utxo, height, coinsAt, hf, hp, elim_some]

lemma utxo_of_nHeight_zero (height : t.nHeight hash = 0) : t.utxo hash = fun _ => none := by
  simp only [nHeight] at height
  simp only [utxo, BlockTree.utxo, height, coinsAt]

lemma utxo_genesis : t.utxo t.genesis = fun _ => none := utxo_of_nHeight_zero nHeight_genesis

/-- Only a coinbase can overwrite, and only the first transaction is one. -/
lemma connects_some {nHeight : ℕ} {u : Utxo} {undone : List UndoneTx}
  (connects : Connects false nHeight u undone) (hu : ∀ q ∈ undone, q.2 ≠ none) :
  Connects true nHeight u undone := by
  induction undone generalizing u with
  | nil => trivial
  | cons first rest ih =>
    obtain ⟨shaped, held, nodup, outputs, free⟩ := connects.1
    have notCoinBase : first.1.isCoinBase = false := by
      obtain ⟨tx, _ | coins⟩ := first
      · exact absurd rfl (hu _ (.head _))
      · exact shaped.1
    exact ⟨⟨shaped, held, nodup, outputs, fun _ => free (Or.inr notCoinBase)⟩,
      ih connects.2 fun q hm => hu q (.tail _ hm)⟩

section
variable (ho : t.NoOverwrite hash) (hf : t.blockIndex hash = some b) (hp : b.pprev = some p)
include ho hf hp

lemma NoOverwrite.connects : Connects true b.nHeight (t.utxo p) b.undone := by
  have connects := t.connects hash b p hf hp
  have absent := ho b p hf hp
  cases vtx : b.block.vtx with
  | nil => simp [undone, undoneTxs, vtx, Connects]
  | cons coinbase rest =>
    have list : b.undone = (coinbase, none) :: rest.zip (b.undo.map some) := by
      simp [undone, undoneTxs, vtx]
    rw [list] at connects ⊢
    obtain ⟨shaped, held, nodup, outputs, -⟩ := connects.1
    refine ⟨⟨shaped, held, nodup, outputs, fun _ q hc => ?_⟩, connects_some connects.2 ?_⟩
    · have isCoinBase : coinbase.isCoinBase = true := shaped
      have nothing : spent coinbase = [] := by simp [spent, isCoinBase]
      rw [nothing]
      exact absent coinbase (by simp [vtx]) isCoinBase q hc
    · intro q hm
      obtain ⟨coins, -, some⟩ := mem_map.mp (of_mem_zip hm).2
      rw [← some]
      simp

lemma undo_step : apply (t.utxo hash) b.undoWrites = t.utxo p := by
  have undo := (ho.connects hf hp).undo
  rw [undone, undoneTxs_fst (t.length hash b p hf hp)] at undo
  rw [utxo_step hf hp]
  exact undo

end

lemma utxo_sane (t : Tree) (hash : Uint256) : Sane (t.utxo hash) := by
  generalize height : t.nHeight hash = n
  induction n generalizing hash with
  | zero =>
    rw [utxo_of_nHeight_zero height]
    intro o coin hf
    cases hf
  | succ n ih =>
    cases hf : t.blockIndex hash with
    | none => simp [nHeight, BlockTree.nHeight, hf] at height
    | some b =>
      rw [nHeight_eq hf] at height
      rcases t.rooted hash b hf with ⟨-, zero, -⟩ | ⟨p, b', hp, hfp, ha⟩
      · omega
      rw [utxo_step hf hp, writes, ← undoneTxs_fst (t.length hash b p hf hp)]
      refine (t.connects hash b p hf hp).sane (by omega) (ih p ?_)
      rw [nHeight_eq hfp]
      omega

lemma undoable (hf : t.blockIndex hash = some b) (hp : b.pprev = some p) :
  ∀ q ∈ b.undone, Undoable q := by
  have edge : t.pprev hash = some p := (pprev_eq hf).trans hp
  have height := t.graded hash p edge
  rw [nHeight_eq hf] at height
  exact Connects.undoable (by omega) (t.utxo_sane p) (t.connects hash b p hf hp)

lemma writes_covered (hf : t.blockIndex hash = some b) (hp : b.pprev = some p) :
  ∀ o ∈ b.writes.map Prod.fst, o ∈ b.undoWrites.map Prod.fst := by
  rw [writes, ← undoneTxs_fst (t.length hash b p hf hp)]
  exact (t.connects hash b p hf hp).covered

end

section
variable {n : ℕ} {fork : Uint256}

variable (steps : up t.pprev n hash = some fork)
include steps

/-- The coins of a block from those of an ancestor: the blocks between them, oldest first. -/
lemma utxo_branch :
  apply (t.utxo fork) ((trail t.pprev n hash).reverse.flatMap t.writesAt) = t.utxo hash := by
  induction n generalizing hash with
  | zero =>
    cases steps
    rfl
  | succ n ih =>
    obtain ⟨p, edge, rest⟩ := up_succ steps
    obtain ⟨b, -, hf, hp, -, -⟩ := stored_of_pprev edge
    rw [trail_of_parent edge, reverse_cons, flatMap_append, apply_append, ih rest, utxo_step hf hp]
    simp [writesAt, hf]

lemma undo_branch (ho : ∀ h ∈ trail t.pprev n hash, t.NoOverwrite h) :
  apply (t.utxo hash) ((trail t.pprev n hash).flatMap t.undoWritesAt) = t.utxo fork := by
  induction n generalizing hash with
  | zero =>
    cases steps
    rfl
  | succ n ih =>
    obtain ⟨p, edge, rest⟩ := up_succ steps
    obtain ⟨b, -, hf, hp, -, -⟩ := stored_of_pprev edge
    rw [trail_of_parent edge] at ho ⊢
    have first : t.undoWritesAt hash = b.undoWrites := by simp [undoWritesAt, hf]
    rw [flatMap_cons, apply_append, first, undo_step (ho hash (.head _)) hf hp]
    exact ih rest fun h hm => ho h (.tail _ hm)

lemma branch_covered : ∀ o ∈ ((trail t.pprev n hash).reverse.flatMap t.writesAt).map Prod.fst,
    o ∈ ((trail t.pprev n hash).flatMap t.undoWritesAt).map Prod.fst := by
  intro o written
  obtain ⟨q, hm, rfl⟩ := mem_map.mp written
  obtain ⟨h, onBranch, byBlock⟩ := mem_flatMap.mp hm
  have onBranch := mem_reverse.mp onBranch
  obtain ⟨p, edge⟩ := parent_of_mem_trail steps onBranch
  obtain ⟨b, -, hf, hp, -, -⟩ := stored_of_pprev edge
  simp only [writesAt, hf, elim_some] at byBlock
  obtain ⟨q', undone, hs⟩ := mem_map.mp (writes_covered hf hp q.1 (mem_map_of_mem byBlock))
  refine mem_map.mpr ⟨q', mem_flatMap.mpr ⟨h, onBranch, ?_⟩, hs⟩
  simpa [undoWritesAt, hf] using undone

end

lemma position_nHeight (contains : t.Contains hash) :
  (position t.blockIndex hash).nHeight = t.nHeight hash := by
  rcases (genesis_ancestor contains).eq_or_above with rfl | ⟨p, edge, m, steps⟩
  · have noParent : t.pprev t.genesis = none := by
      rw [eq_none_iff_forall_ne_some]
      intro p edge
      have grown := t.graded _ _ edge
      rw [nHeight_genesis] at grown
      omega
    rw [nHeight_genesis]
    simp only [pprev] at noParent
    simp [position, BlockPosition.nHeight, noParent]
  · have height := t.graded hash p edge
    have grown := height_up t.graded steps
    rw [nHeight_genesis] at grown
    have length := trail_length steps
    have exact : t.nHeight hash = m + 1 := by omega
    simp only [pprev, nHeight] at edge exact ⊢
    simp only [position, BlockPosition.nHeight, edge, exact, elim_some, length_reverse]
    exact length

end Tree

end BlockTree
