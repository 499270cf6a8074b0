import Andaluzcoin.Transaction

/-!
# Prioritised transactions

`PrioritiseTransaction` of `txmempool.cpp` adds to the recorded delta of a transaction and, when
it is in the mempool, to its modified fee and to its fee in the `TxGraph`. An entry that is added
later starts from its recorded delta. Of the mempool only the fees are kept here; which entries a
removal takes is an argument.
-/

namespace Prioritisation

open Transaction Function

section

/-- `SaturatingAdd` of `util/overflow.h` for `int64_t`. -/
def saturatingAdd (i j : Int) : Int :=
  if i > 0 ∧ j > 2 ^ 63 - 1 - i then 2 ^ 63 - 1
  else if i < 0 ∧ j < -(2 ^ 63) - i then -(2 ^ 63)
  else i + j

/-- An entry is the reference by which the graph knows it, here with the fee the graph holds. -/
structure CTxMemPoolEntry where
  nFee : Int
  modifiedFee : Int
  graphFee : Int
  deriving DecidableEq

def CTxMemPoolEntry.updateModifiedFee (entry : CTxMemPoolEntry) (feeDiff : Int) : CTxMemPoolEntry :=
  { entry with modifiedFee := saturatingAdd entry.modifiedFee feeDiff }

def CTxMemPoolEntry.setTransactionFee (entry : CTxMemPoolEntry) (fee : Int) : CTxMemPoolEntry :=
  { entry with graphFee := fee }

structure CTxMemPool where
  mapTx : Txid → Option CTxMemPoolEntry
  mapDeltas : Txid → Option Int

/-- A transaction of a block, with the entries in conflict with it and what descends from each. -/
structure BlockTx where
  hash : Txid
  conflicts : List (Txid × List Txid)

namespace CTxMemPool

variable (pool : CTxMemPool)

def prioritiseTransaction (hash : Txid) (nFeeDelta : Int) : CTxMemPool :=
  let delta := saturatingAdd ((pool.mapDeltas hash).getD 0) nFeeDelta
  let prioritise (it : CTxMemPoolEntry) :=
    let it := it.updateModifiedFee nFeeDelta
    it.setTransactionFee it.modifiedFee
  { mapTx := update pool.mapTx hash ((pool.mapTx hash).map prioritise)
    mapDeltas := update pool.mapDeltas hash (if delta = 0 then none else some delta) }

def applyDelta (hash : Txid) (nFeeDelta : Int) : Int :=
  match pool.mapDeltas hash with
  | none => nFeeDelta
  | some delta => nFeeDelta + delta

def clearPrioritisation (hash : Txid) : CTxMemPool :=
  { pool with mapDeltas := update pool.mapDeltas hash none }

/-- `removeUnchecked` for each of some entries. -/
def removeAll (hashes : List Txid) : CTxMemPool :=
  { pool with mapTx := fun hash => if hash ∈ hashes then none else pool.mapTx hash }

/-- The entry that `StageAddition` makes. -/
def newEntry (hash : Txid) (fee : Int) : CTxMemPoolEntry :=
  let delta := pool.applyDelta hash 0
  let newit : CTxMemPoolEntry := ⟨fee, fee, fee⟩
  if delta = 0 then newit
  else
    let newit := newit.updateModifiedFee delta
    newit.setTransactionFee newit.modifiedFee

/-- A transaction that is in the mempool already is not inserted again. -/
def addNewTransaction (tx : Txid × Int) : CTxMemPool :=
  if (pool.mapTx tx.1).isSome then pool
  else { pool with mapTx := update pool.mapTx tx.1 (some (pool.newEntry tx.1 tx.2)) }

/-- `Apply` of a change set with some removals and then additions. -/
def apply (toRemove : List Txid) (toAdd : List (Txid × Int)) : CTxMemPool :=
  toAdd.foldl addNewTransaction (pool.removeAll toRemove)

def removeConflict (tx : BlockTx) (conflict : Txid × List Txid) : CTxMemPool :=
  if conflict.1 = tx.hash then pool
  else (pool.clearPrioritisation conflict.1).removeAll (conflict.1 :: conflict.2)

def removeForBlock (vtx : List BlockTx) : CTxMemPool :=
  vtx.foldl (fun pool tx => (tx.conflicts.foldl (removeConflict · tx)
    (pool.removeAll [tx.hash])).clearPrioritisation tx.hash) pool

end CTxMemPool

/-- `removeEntries` stands for `removeRecursive`, `removeForReorg`, `Expire` and `TrimToSize`. -/
inductive Operation where
  | prioritiseTransaction (hash : Txid) (nFeeDelta : Int)
  | apply (toRemove : List Txid) (toAdd : List (Txid × Int))
  | removeEntries (hashes : List Txid)
  | removeForBlock (vtx : List BlockTx)

def CTxMemPool.run (pool : CTxMemPool) : Operation → CTxMemPool
  | .prioritiseTransaction hash nFeeDelta => pool.prioritiseTransaction hash nFeeDelta
  | .apply toRemove toAdd => pool.apply toRemove toAdd
  | .removeEntries hashes => pool.removeAll hashes
  | .removeForBlock vtx => pool.removeForBlock vtx

def CTxMemPool.empty : CTxMemPool := ⟨fun _ => none, fun _ => none⟩

def CTxMemPool.runAll (pool : CTxMemPool) (ops : List Operation) : CTxMemPool :=
  ops.foldl CTxMemPool.run pool

end

open CTxMemPool CTxMemPoolEntry

variable {pool pool' : CTxMemPool} {hash : Txid} {nFeeDelta : Int} {cleared removed : List Txid}

def CTxMemPool.delta (pool : CTxMemPool) (hash : Txid) : Int := (pool.mapDeltas hash).getD 0

/-- The modified fee of a transaction in the mempool is the saturating sum of its base fee and its
recorded delta. -/
def Paid (pool : CTxMemPool) (hash : Txid) : Prop :=
  ∀ entry ∈ pool.mapTx hash, entry.modifiedFee = saturatingAdd entry.nFee (pool.delta hash)

/-- The amounts are `CAmount`s, and no base fee is negative. -/
def Operation.InRange : Operation → Prop
  | prioritiseTransaction _ nFeeDelta => InInt64 nFeeDelta
  | apply _ toAdd => ∀ tx ∈ toAdd, 0 ≤ tx.2 ∧ InInt64 tx.2
  | removeEntries _ | removeForBlock _ => True

/-- A call for a transaction in the mempool adds the same to its modified fee and to its delta: it
takes nothing from a modified fee that was cut off, and does not cut off the delta below unless
there is no base fee. -/
def Commutes (pool : CTxMemPool) (hash : Txid) : Operation → Prop
  | .prioritiseTransaction other nFeeDelta => hash = other → ∀ entry ∈ pool.mapTx hash,
      (nFeeDelta < 0 → entry.nFee + pool.delta hash < 2 ^ 63) ∧
        (entry.nFee = 0 ∨ -(2 ^ 63) ≤ pool.delta hash + nFeeDelta)
  | .apply _ _ | .removeEntries _ | .removeForBlock _ => True

def CommutesAll (hash : Txid) : CTxMemPool → List Operation → Prop
  | _, [] => True
  | pool, op :: ops => Commutes pool hash op ∧ CommutesAll hash (pool.run op) ops

/-- The deltas that a transaction of a block clears. -/
def BlockTx.clears (tx : BlockTx) : List Txid :=
  (tx.conflicts.flatMap fun c => if c.1 = tx.hash then [] else [c.1]) ++ [tx.hash]

/-- The amounts of the calls for a transaction since its delta was last cleared. -/
def Operation.calls (hash : Txid) (before : List Int) : Operation → List Int
  | prioritiseTransaction other nFeeDelta => if hash = other then before ++ [nFeeDelta] else before
  | removeForBlock vtx => if hash ∈ vtx.flatMap BlockTx.clears then [] else before
  | apply _ _ | removeEntries _ => before

lemma saturatingAdd_range {i j : Int} (hi : InInt64 i) (hj : InInt64 j) :
  InInt64 (saturatingAdd i j) := by
  unfold InInt64 saturatingAdd at *
  split_ifs <;> omega

/-- Where two saturating sums that start from a base fee and from zero agree again. -/
lemma saturatingAdd_assoc_iff {fee delta amount : Int} (hn : 0 ≤ fee) (hf : InInt64 fee)
  (hd : InInt64 delta) (ha : InInt64 amount) :
  saturatingAdd (saturatingAdd fee delta) amount = saturatingAdd fee (saturatingAdd delta amount) ↔
    (amount < 0 → fee + delta < 2 ^ 63) ∧ (fee = 0 ∨ -(2 ^ 63) ≤ delta + amount) := by
  unfold InInt64 at *
  simp only [saturatingAdd]
  split_ifs <;> omega

lemma prioritise_delta (pool : CTxMemPool) (hash : Txid) (nFeeDelta : Int) (other : Txid) :
  (pool.prioritiseTransaction hash nFeeDelta).delta other
    = if other = hash then saturatingAdd (pool.delta hash) nFeeDelta else pool.delta other := by
  unfold delta prioritiseTransaction
  by_cases hh : other = hash
  · subst hh
    rw [if_pos rfl]
    dsimp only
    rw [update_self]
    split
    · next hz => exact hz.symm
    · rfl
  · rw [if_neg hh]
    dsimp only
    rw [update_of_ne hh]

/-- Deltas and base fees are in range, and the graph holds the modified fees. -/
structure Sound (pool : CTxMemPool) : Prop where
  deltas : ∀ hash, InInt64 (pool.delta hash)
  fees : ∀ hash entry, pool.mapTx hash = some entry →
    0 ≤ entry.nFee ∧ InInt64 entry.nFee ∧ entry.graphFee = entry.modifiedFee

lemma Sound.prioritise (sound : Sound pool) (range : InInt64 nFeeDelta) (hash : Txid) :
  Sound (pool.prioritiseTransaction hash nFeeDelta) := by
  refine ⟨fun other => ?_, fun other entry hf => ?_⟩
  · rw [prioritise_delta]
    split
    · exact saturatingAdd_range (sound.deltas hash) range
    · exact sound.deltas other
  by_cases hh : other = hash
  · subst hh
    simp only [prioritiseTransaction, update_self, Option.map_eq_some_iff] at hf
    obtain ⟨old, wasThere, rfl⟩ := hf
    obtain ⟨low, high, -⟩ := sound.fees other old wasThere
    exact ⟨low, high, rfl⟩
  · simp only [prioritiseTransaction, update_of_ne hh] at hf
    exact sound.fees other entry hf

/-- A call keeps the fee of a transaction right exactly if it commutes. -/
lemma Paid.prioritise_iff (paid : Paid pool hash) (sound : Sound pool) (range : InInt64 nFeeDelta)
  (other : Txid) : Paid (pool.prioritiseTransaction other nFeeDelta) hash ↔
    Commutes pool hash (.prioritiseTransaction other nFeeDelta) := by
  by_cases hh : hash = other
  · subst hh
    rw [Paid, prioritise_delta, if_pos rfl]
    simp only [Commutes, prioritiseTransaction, update_self, forall_const]
    cases hf : pool.mapTx hash with
    | none => simp
    | some entry =>
      obtain ⟨low, high, -⟩ := sound.fees hash entry hf
      have fee := paid entry hf
      have agree := saturatingAdd_assoc_iff low high (sound.deltas hash) range
      simpa [setTransactionFee, updateModifiedFee, fee] using agree
  · rw [Paid, prioritise_delta, if_neg hh]
    simp only [Commutes, prioritiseTransaction, update_of_ne hh, hh, false_implies, iff_true]
    exact paid

lemma newEntry_eq (pool : CTxMemPool) (hash : Txid) {fee : Int} (range : InInt64 fee) :
  pool.newEntry hash fee
    = ⟨fee, saturatingAdd fee (pool.delta hash), saturatingAdd fee (pool.delta hash)⟩ := by
  have delta : pool.applyDelta hash 0 = pool.delta hash := by
    unfold applyDelta delta
    cases pool.mapDeltas hash <;> simp
  rw [newEntry, delta]
  dsimp only
  split
  · next hz =>
    obtain ⟨low, high⟩ := range
    rw [hz, saturatingAdd, if_neg (by omega), if_neg (by omega), add_zero]
  · rfl

lemma Sound.add {tx : Txid × Int} (sound : Sound pool) (range : 0 ≤ tx.2 ∧ InInt64 tx.2) :
  Sound (pool.addNewTransaction tx) ∧ (Paid pool hash → Paid (pool.addNewTransaction tx) hash) ∧
    (pool.addNewTransaction tx).mapDeltas = pool.mapDeltas := by
  unfold addNewTransaction
  split
  · exact ⟨sound, id, rfl⟩
  rw [newEntry_eq pool tx.1 range.2]
  refine ⟨⟨sound.deltas, fun other entry hf => ?_⟩, fun paid entry hf => ?_, rfl⟩
  · dsimp only at hf
    by_cases hh : other = tx.1
    · subst hh
      rw [update_self, Option.some.injEq] at hf
      subst hf
      exact ⟨range.1, range.2, rfl⟩
    · rw [update_of_ne hh] at hf
      exact sound.fees other entry hf
  · rw [Option.mem_def] at hf
    dsimp only at hf
    by_cases hh : hash = tx.1
    · subst hh
      rw [update_self, Option.some.injEq] at hf
      subst hf
      rfl
    · rw [update_of_ne hh] at hf
      exact paid entry hf

lemma Sound.addAll (sound : Sound pool) (toAdd : List (Txid × Int))
  (range : ∀ tx ∈ toAdd, 0 ≤ tx.2 ∧ InInt64 tx.2) : Sound (toAdd.foldl addNewTransaction pool) ∧
    (Paid pool hash → Paid (toAdd.foldl addNewTransaction pool) hash) ∧
    (toAdd.foldl addNewTransaction pool).mapDeltas = pool.mapDeltas := by
  induction toAdd generalizing pool with
  | nil => exact ⟨sound, id, rfl⟩
  | cons tx rest ih =>
    rw [List.forall_mem_cons] at range
    obtain ⟨sound', paid, same⟩ := sound.add range.1
    obtain ⟨last, paid', same'⟩ := ih sound' range.2
    exact ⟨last, fun hp => paid' (paid hp), same'.trans same⟩

/-- Some entries have gone, and some deltas were cleared. -/
structure Dropped (removed cleared : List Txid) (pool pool' : CTxMemPool) : Prop where
  entries : ∀ hash entry, pool'.mapTx hash = some entry →
    pool.mapTx hash = some entry ∧ hash ∉ removed
  deltas : ∀ hash, pool'.delta hash = if hash ∈ cleared then 0 else pool.delta hash

lemma Dropped.trans {removed' cleared' : List Txid} {pool'' : CTxMemPool}
  (first : Dropped removed cleared pool pool') (hs : Dropped removed' cleared' pool' pool'') :
  Dropped (removed ++ removed') (cleared ++ cleared') pool pool'' := by
  constructor
  · intro hash entry hf
    obtain ⟨hf', hh'⟩ := hs.entries hash entry hf
    obtain ⟨old, hh⟩ := first.entries hash entry hf'
    exact ⟨old, by simp [hh, hh']⟩
  · intro hash
    rw [hs.deltas, first.deltas]
    by_cases hh : hash ∈ cleared' <;> simp [hh]

lemma Dropped.foldl {α : Type} {step : CTxMemPool → α → CTxMemPool} {removed cleared : α → List Txid}
  (single : ∀ pool a, Dropped (removed a) (cleared a) pool (step pool a)) (as : List α)
  (pool : CTxMemPool) :
  Dropped (as.flatMap removed) (as.flatMap cleared) pool (as.foldl step pool) := by
  induction as generalizing pool with
  | nil => exact ⟨fun _ _ hf => ⟨hf, by simp⟩, by simp⟩
  | cons a rest ih => exact (single pool a).trans (ih _)

variable (hash) in
/-- A delta is cleared only if its entry is gone. -/
lemma Dropped.keeps (dropped : Dropped removed cleared pool pool') (gone : cleared ⊆ removed)
  (sound : Sound pool) : Sound pool' ∧ (Paid pool hash → Paid pool' hash) := by
  refine ⟨⟨fun hash => ?_, fun hash entry hf => ?_⟩, fun paid entry hf => ?_⟩
  · rw [dropped.deltas]
    split
    · exact ⟨by decide, by decide⟩
    · exact sound.deltas hash
  · exact sound.fees hash entry (dropped.entries hash entry hf).1
  · obtain ⟨old, hs⟩ := dropped.entries hash entry hf
    rw [dropped.deltas, if_neg fun hh => hs (gone hh)]
    exact paid entry old

lemma removeAll_dropped (pool : CTxMemPool) (hashes : List Txid) :
  Dropped hashes [] pool (pool.removeAll hashes) := by
  refine ⟨fun hash entry hf => ?_, fun hash => rfl⟩
  simpa [removeAll, and_comm] using hf

lemma clear_dropped (pool : CTxMemPool) (hash : Txid) :
  Dropped [] [hash] pool (pool.clearPrioritisation hash) := by
  refine ⟨fun other entry hf => ⟨hf, by simp⟩, fun other => ?_⟩
  by_cases hh : other = hash <;> simp [delta, clearPrioritisation, hh]

lemma removeForBlock_dropped (pool : CTxMemPool) (vtx : List BlockTx) : ∃ removed,
  vtx.flatMap BlockTx.clears ⊆ removed ∧
    Dropped removed (vtx.flatMap BlockTx.clears) pool (pool.removeForBlock vtx) := by
  have conflict (tx : BlockTx) (pool : CTxMemPool) (c : Txid × List Txid) :
    Dropped (if c.1 = tx.hash then [] else c.1 :: c.2) (if c.1 = tx.hash then [] else [c.1]) pool
      (pool.removeConflict tx c) := by
    unfold removeConflict
    split
    · exact ⟨fun _ _ hf => ⟨hf, by simp⟩, by simp⟩
    · exact (clear_dropped pool c.1).trans (removeAll_dropped _ _)
  refine ⟨_, ?_, Dropped.foldl (fun pool tx => ((removeAll_dropped pool [tx.hash]).trans
    (Dropped.foldl (conflict tx) tx.conflicts _)).trans (clear_dropped _ tx.hash)) vtx pool⟩
  intro hash
  simp only [List.mem_flatMap, BlockTx.clears, List.mem_append, List.mem_singleton]
  rintro ⟨tx, inBlock, ⟨c, isConflict, hh⟩ | rfl⟩
  · refine ⟨tx, inBlock, .inl (.inr ⟨c, isConflict, ?_⟩)⟩
    split at hh <;> simp_all
  · exact ⟨tx, inBlock, .inl (.inl rfl)⟩

/-- One operation: the fee of a transaction stays right exactly if the operation commutes, and the
calls for it are added up in its delta. -/
lemma Sound.run {op : Operation} (sound : Sound pool) (range : op.InRange) (hash : Txid) :
  Sound (pool.run op) ∧ (Paid pool hash → (Paid (pool.run op) hash ↔ Commutes pool hash op)) ∧
    ∀ before, pool.delta hash = before.foldl saturatingAdd 0 →
      (pool.run op).delta hash = (op.calls hash before).foldl saturatingAdd 0 := by
  cases op with
  | prioritiseTransaction other nFeeDelta =>
    refine ⟨sound.prioritise range other, fun paid => paid.prioritise_iff sound range other,
      fun before sum => ?_⟩
    rw [CTxMemPool.run, prioritise_delta, Operation.calls]
    split
    · next hh => rw [← hh, sum, List.foldl_append, List.foldl_cons, List.foldl_nil]
    · exact sum
  | apply toRemove toAdd =>
    obtain ⟨removed, hr⟩ := (removeAll_dropped pool toRemove).keeps hash (by simp) sound
    obtain ⟨added, ha, hs⟩ := removed.addAll toAdd range
    refine ⟨added, fun paid => iff_of_true (ha (hr paid)) trivial, fun before sum => ?_⟩
    rw [CTxMemPool.run, delta, apply, hs]
    exact sum
  | removeEntries hashes =>
    obtain ⟨removed, hr⟩ := (removeAll_dropped pool hashes).keeps hash (by simp) sound
    exact ⟨removed, fun paid => iff_of_true (hr paid) trivial, fun _ sum => sum⟩
  | removeForBlock vtx =>
    obtain ⟨removed, gone, dropped⟩ := removeForBlock_dropped pool vtx
    obtain ⟨sound', hr⟩ := dropped.keeps hash gone sound
    refine ⟨sound', fun paid => iff_of_true (hr paid) trivial, fun before sum => ?_⟩
    rw [CTxMemPool.run, dropped.deltas, Operation.calls]
    split
    · rfl
    · exact sum

lemma Sound.runAll {ops : List Operation} (sound : Sound pool) (range : ∀ op ∈ ops, op.InRange)
  (hash : Txid) : Sound (pool.runAll ops) ∧
    (Paid pool hash →
      ((∀ done, done <+: ops → Paid (pool.runAll done) hash) ↔ CommutesAll hash pool ops)) ∧
    ∀ before, pool.delta hash = before.foldl saturatingAdd 0 →
      (pool.runAll ops).delta hash
        = (ops.foldl (Operation.calls hash) before).foldl saturatingAdd 0 := by
  induction ops generalizing pool with
  | nil =>
    refine ⟨sound, fun paid => iff_of_true (fun done none_ => ?_) trivial, fun _ sum => sum⟩
    rw [List.prefix_nil.mp none_]
    exact paid
  | cons op rest ih =>
    rw [List.forall_mem_cons] at range
    obtain ⟨sound', first, calls⟩ := sound.run range.1 hash
    obtain ⟨last, later, sums⟩ := ih sound' range.2
    refine ⟨last, fun paid => ?_, fun before sum => sums _ (calls before sum)⟩
    rw [CommutesAll, ← first paid]
    constructor
    · intro all
      have paid' := all [op] (by simp)
      refine ⟨paid', (later paid').mp fun done hd => all (op :: done) ?_⟩
      simpa using hd
    · rintro ⟨paid', all⟩ done hd
      rcases List.prefix_cons_iff.mp hd with rfl | ⟨later', rfl, hd'⟩
      · exact paid
      · exact (later paid').mpr all later' hd'

/-- **Prioritisation.** All along a run the modified fee of a transaction is the saturating sum of
its base fee and its delta exactly if every call for it while it is in the mempool commutes with the
base fee. The delta is the saturating sum of the calls since it was cleared, and the graph always
holds the modified fee. -/
theorem prioritised_fee (ops : List Operation) (range : ∀ op ∈ ops, op.InRange) (hash : Txid) :
  ((∀ done, done <+: ops → Paid (empty.runAll done) hash) ↔ CommutesAll hash .empty ops) ∧
    ((empty.runAll ops).mapDeltas hash).getD 0
      = (ops.foldl (Operation.calls hash) []).foldl saturatingAdd 0 ∧
    ∀ entry, (empty.runAll ops).mapTx hash = some entry → entry.graphFee = entry.modifiedFee := by
  have zero : InInt64 0 := ⟨by decide, by decide⟩
  have start : Sound .empty := ⟨fun _ => zero, fun _ _ found => by cases found⟩
  obtain ⟨sound, paid, sums⟩ := start.runAll range hash
  exact ⟨paid (fun _ found => by cases found), sums [] rfl,
    fun entry found => (sound.fees hash entry found).2.2⟩

/-- A call before the transaction is added and two after it, while another one is cut off. -/
def earlyAndLate : List Operation :=
  [.prioritiseTransaction 1 500, .apply [] [(1, 1000), (2, 1000)], .prioritiseTransaction 1 (-700),
    .prioritiseTransaction 2 (2 ^ 63 - 1), .prioritiseTransaction 2 (-1),
    .prioritiseTransaction 1 (2 ^ 63 - 1)]

theorem prioritised_fee_earlyAndLate :
  (empty.runAll earlyAndLate).mapTx 1 = some ⟨1000, 2 ^ 63 - 1, 2 ^ 63 - 1⟩ ∧
    Paid (empty.runAll earlyAndLate) 1 := by
  refine ⟨by decide +kernel, (prioritised_fee earlyAndLate ?_ 1).1.mpr ?_ _ List.prefix_rfl⟩
  · simp only [earlyAndLate, List.forall_mem_cons, Operation.InRange, InInt64, List.not_mem_nil,
      false_implies, implies_true]
    decide +kernel
  · simp only [earlyAndLate, CommutesAll, Commutes]
    decide +kernel

/-- The modified fee of the entry was cut off at the largest amount by the first call, unlike that of
an entry added after the same calls. -/
theorem prioritised_fee_saturated : let calls : List Operation :=
    [.prioritiseTransaction 1 (2 ^ 63 - 1), .prioritiseTransaction 1 (-(2 ^ 63 - 2))]
  let added := .apply [] [(1, 1000)]
  (empty.runAll (added :: calls)).mapTx 1 = some ⟨1000, 1, 1⟩ ∧
    (empty.runAll (added :: calls)).mapDeltas 1 = some 1 ∧
    (empty.runAll (calls ++ [added])).mapTx 1 = some ⟨1000, 1001, 1001⟩ ∧
    ¬ Paid (empty.runAll (added :: calls)) 1 := by
  refine ⟨?_, ?_, ?_, fun paid => ?_⟩
  · decide +kernel
  · decide +kernel
  · decide +kernel
  · exact absurd (paid ⟨1000, 1, 1⟩ (by decide +kernel)) (by decide +kernel)

end Prioritisation
