import Andaluzcoin.CoinsFlush
import Andaluzcoin.ReplayBlocks

/-!
# Recovery of the coins database from an interrupted flush

A flush that stops between two batches leaves every outpoint with its old or its new
coin and the two tips in the database. Replaying undoes the old branch and redoes the
new one, whatever part of them was already written, and ends with the coins of the new
tip. This holds as long as no block of the old branch overwrote an unspent coin.
-/

namespace CrashRecovery

open Transaction Coins CoinsInvariant CoinsFlush ConnectBlock DisconnectBlock LayeredMap
open Or (inr inl)
open ParentTree UtxoSet UtxoWrites BlockTree ReplayBlocks List Function Tree

section
variable {full : CDBBatch → Bool} {entries : List (COutPoint × CCoinsCacheEntry)} {batch : CDBBatch}

lemma batchLoop_flatten :
  (batchLoop full batch entries).1.flatten ++ (batchLoop full batch entries).2
    = batch ++ entries.flatMap entryWrites := by
  induction entries generalizing batch with
  | nil => simp [batchLoop]
  | cons p rest ih =>
    unfold batchLoop
    split
    · simp [ih]
    · simp [ih]

lemma batchLoop_take {k : ℕ} (some : 1 ≤ k) (hp : k ≤ (batchLoop full batch entries).1.length) :
  ∃ m, ((batchLoop full batch entries).1.take k).flatten
    = batch ++ (entries.take m).flatMap entryWrites := by
  induction entries generalizing batch k with
  | nil =>
    simp only [batchLoop, length_nil] at hp
    omega
  | cons p rest ih =>
    unfold batchLoop at hp ⊢
    split at hp
    · next isFull =>
      rw [if_pos isFull]
      obtain ⟨k, rfl⟩ : ∃ k', k = k' + 1 := ⟨k - 1, by omega⟩
      rcases eq_zero_or_pos k with rfl | more
      · exact ⟨1, by simp⟩
      · obtain ⟨m, taken⟩ := ih more (by simpa using hp)
        exact ⟨m + 1, by simp [taken]⟩
    · next notFull =>
      rw [if_neg notFull]
      obtain ⟨m, taken⟩ := ih some hp
      exact ⟨m + 1, by simp [taken]⟩

section
variable (db : CCoinsViewDB)
include db

lemma writeBatches_eq (batches : List CDBBatch) :
  db.writeBatches batches = db.writeBatch batches.flatten := by
  induction batches generalizing db with
  | nil => rfl
  | cons first rest ih =>
    have step : db.writeBatches (first :: rest) = (db.writeBatch first).writeBatches rest := rfl
    rw [step, ih, flatten_cons, CCoinsViewDB.writeBatch, CCoinsViewDB.writeBatch,
      CCoinsViewDB.writeBatch, foldl_append]

lemma writeBatch_append (first second : CDBBatch) :
  db.writeBatch (first ++ second) = (db.writeBatch first).writeBatch second := by
  simp [CCoinsViewDB.writeBatch]

lemma writeBatch_entry (p : COutPoint × CCoinsCacheEntry) : db.writeBatch (entryWrites p)
    = ⟨db.toCoinsViewBottom.batchWriteEntry p, db.headBlocks⟩ := by
  unfold entryWrites CoinsViewBottom.batchWriteEntry
  split
  · split
    · rfl
    · rfl
  · rfl

lemma writeBatch_entries (hd : ∀ p ∈ entries, p.2.dirty = true) :
  (db.writeBatch (entries.flatMap entryWrites)).getCoin = written db.getCoin entries ∧
    (db.writeBatch (entries.flatMap entryWrites)).bestBlock = db.bestBlock ∧
    (db.writeBatch (entries.flatMap entryWrites)).headBlocks = db.headBlocks := by
  induction entries generalizing db with
  | nil => exact ⟨rfl, rfl, rfl⟩
  | cons p rest ih =>
    rw [flatMap_cons, writeBatch_append, writeBatch_entry]
    have isDirty := hd p (.head _)
    obtain ⟨coins, best, heads⟩ :=
      ih ⟨db.toCoinsViewBottom.batchWriteEntry p, db.headBlocks⟩ fun q hm =>
        hd q (.tail _ hm)
    have keeps : (db.toCoinsViewBottom.batchWriteEntry p).bestBlock = db.bestBlock := by
      rw [CoinsViewBottom.batchWriteEntry, if_pos isDirty]
      split
      · rfl
      · rfl
    refine ⟨?_, best.trans keeps, heads⟩
    rw [coins, bottom_batchWriteEntry _ isDirty]
    rfl

end

/-- The flush of a cache that shows `target`: what the database holds between two batches
and after the last one. -/
structure Flushes (db : CCoinsViewDB) (new old : Uint256) (target : Utxo)
  (batches : List CDBBatch) : Prop where
  between : ∀ k, 1 ≤ k → k < batches.length →
    (db.writeBatches (batches.take k)).bestBlock = 0 ∧
      (db.writeBatches (batches.take k)).headBlocks = [new, old] ∧
      ∀ o, (db.writeBatches (batches.take k)).getCoin o = db.getCoin o ∨
        (db.writeBatches (batches.take k)).getCoin o = target o
  bestBlock : (db.writeBatches batches).bestBlock = new
  headBlocks : (db.writeBatches batches).headBlocks = []
  coins : (db.writeBatches batches).getCoin = target

lemma flushBatches_flushes (full : CDBBatch → Bool) {db : CCoinsViewDB} {cache : CCoinsViewCache}
  (hv : Valid true cache.toView) (base : cache.base.peekCoin = db.getCoin)
  (hn : cache.layer.hashBlock ≠ 0) {old : Uint256}
  (tip : oldTip db cache.layer.hashBlock = .ok old) :
  ∃ batches, flushBatches full db cache = .ok batches ∧
    Flushes db cache.layer.hashBlock old cache.peekCoin batches := by
  have layerValid := hv.1
  have nodup := cursor_keys_nodup layerValid.linked
  have dirty : ∀ p ∈ cache.layer.cursor, p.2.dirty = true := fun p hm =>
    (cursor_writable layerValid p hm).1
  have shown : written db.getCoin cache.layer.cursor = cache.peekCoin := by
    rw [← base]
    exact written_cursor layerValid
  set new := cache.layer.hashBlock with hnew
  set start : CDBBatch := [.eraseBestBlock, .writeHeadBlocks [new, old]] with hstart
  set loop := batchLoop full start cache.layer.cursor with hloop
  set started := db.writeBatch start with hstarted
  refine ⟨loop.1 ++ [loop.2 ++ [.eraseHeadBlocks, .writeBestBlock new]], ?_, ?_⟩
  · simp only [flushBatches, batchWrite, ← hnew, if_neg hn, tip, bind, Except.bind, ← hstart,
      ← hloop]
  have whole : db.writeBatches (loop.1 ++ [loop.2 ++ [.eraseHeadBlocks, .writeBestBlock new]])
    = (started.writeBatch (cache.layer.cursor.flatMap entryWrites)).writeBatch
      [.eraseHeadBlocks, .writeBestBlock new] := by
    rw [writeBatches_eq, flatten_append, flatten_singleton, ← append_assoc, hloop,
      batchLoop_flatten, writeBatch_append, writeBatch_append]
  have written := writeBatch_entries started dirty
  refine ⟨fun k some partly => ?_, ?_, ?_, ?_⟩
  · have inLoop : k ≤ loop.1.length := by
      simp only [length_append, length_singleton] at partly
      omega
    obtain ⟨m, taken⟩ := batchLoop_take some (hloop ▸ inLoop)
    have dirtyTake : ∀ p ∈ cache.layer.cursor.take m, p.2.dirty = true := fun p hm =>
      dirty p (mem_of_mem_take hm)
    obtain ⟨coins, best, heads⟩ := writeBatch_entries started dirtyTake
    rw [take_append_of_le_length inLoop, writeBatches_eq, taken, writeBatch_append]
    refine ⟨best, heads, fun o => ?_⟩
    rw [coins, ← shown]
    exact writeAll_take CCoinsCacheEntry.unspent cache.layer.cursor db.getCoin nodup m o
  · rw [whole]
    rfl
  · rw [whole]
    rfl
  · rw [whole]
    exact written.1.trans shown

end

section
variable {t : Tree} {fork old new : Uint256} {n : ℕ} {cache : CCoinsViewCache}

/-- Rolling back along a branch performs the undo writes of its blocks, newest first. -/
lemma rollback_performs (hv : Valid true cache.toView)
  (hs : up t.pprev n old = some fork) {fuel : ℕ} (he : n ≤ fuel) :
  ∃ cache', rollback t fork fuel old cache = .ok cache' ∧
    Performs cache cache' ((trail t.pprev n old).flatMap t.undoWritesAt) := by
  induction n generalizing old cache fuel with
  | zero =>
    cases hs
    refine ⟨cache, ?_, .of_same (.refl hv)⟩
    cases fuel with
    | zero => simp [rollback]
    | succ fuel => simp [rollback]
  | succ n ih =>
    obtain ⟨p, edge, rest⟩ := up_succ hs
    obtain ⟨b, b', hf, hpa, -, ha⟩ := stored_of_pprev edge
    have grown := height_up t.graded hs
    have notFork : old ≠ fork := by
      rintro rfl
      omega
    have position : (position t.blockIndex old).nHeight = b.nHeight := by
      rw [position_nHeight (contains_of_pprev edge).1, nHeight_eq hf]
    obtain ⟨result, cache₁, ok, hfa, hp, -, -⟩ :=
      disconnectBlock_performs (BlockTree.position t.blockIndex old) hv
        (t.length old b p hf hpa) (undoable hf hpa)
    obtain ⟨fuel, rfl⟩ : ∃ fuel', fuel = fuel' + 1 := ⟨fuel - 1, by omega⟩
    obtain ⟨cache₂, hor, hpr⟩ := ih hp.valid rest (Nat.le_of_succ_le_succ he)
    have undoes : t.undoWritesAt old = blockUndoWrites (BlockTree.position t.blockIndex old).nHeight
        (undoneTxs b.block b.undo) := by
      rw [position]
      simp [undoWritesAt, hf, StoredBlock.undoWrites, StoredBlock.undone]
    have positive : b.nHeight > 0 := by omega
    refine ⟨cache₂, ?_, ?_⟩
    · simp only [rollback, rollbackBlock, notFork, if_false, hf, positive, if_true, ok,
        Except.mapError, bind, Except.bind, hfa, hpa, hor]
    · rw [trail_of_parent edge, flatMap_cons, undoes]
      exact hp.trans hpr

lemma rollforward_performs (hv : Valid true cache.toView) {heights : List ℕ} {hashes : List Uint256}
  (ancestors : heights.map (getAncestor t.pprev t.nHeight new) = hashes.map some)
  (hc : ∀ hash ∈ hashes, ∃ p, t.pprev hash = some p) :
  ∃ cache', rollforward t new heights cache = .ok cache' ∧
    Performs cache cache' (hashes.flatMap t.writesAt) := by
  induction hashes generalizing heights cache with
  | nil =>
    obtain rfl : heights = [] := map_eq_nil_iff.mp ancestors
    exact ⟨cache, rfl, .of_same (.refl hv)⟩
  | cons hash rest ih =>
    obtain ⟨h, heights, rfl, first, hl⟩ := map_eq_cons_iff.mp ancestors
    obtain ⟨p, edge⟩ := hc hash (.head _)
    obtain ⟨b, -, hf, hpa, -, -⟩ := stored_of_pprev edge
    have outputs := (t.connects hash b p hf hpa).outputs
    rw [StoredBlock.undone, undoneTxs_fst (t.length hash b p hf hpa)] at outputs
    obtain ⟨cache₁, ok, hp⟩ := rollforwardTxs_performs b.nHeight hv outputs
    obtain ⟨cache₂, hor, hpr⟩ := ih hp.valid hl fun h hm =>
      hc h (.tail _ hm)
    refine ⟨cache₂, ?_, ?_⟩
    · simp only [rollforward, first, Option.bind_some, hf, rollforwardBlock, ok,
        Except.mapError, bind, Except.bind, hor]
    have writes : t.writesAt hash = blockWrites b.nHeight b.block.vtx := by
      simp [writesAt, hf, StoredBlock.writes]
    rw [flatMap_cons, writes]
    exact hp.trans hpr

/-- The end of `ReplayBlocks`, after whatever rollback on the cache it started from. -/
lemma rollforward_finishes {m : ℕ} {start cache₁ : CCoinsViewCache} {undoWrites : Writes}
  (hrb : Performs start cache₁ undoWrites) (hf : up t.pprev m new = some fork) :
  ∃ cache, rollforward t new
      ((List.range (t.nHeight new - t.nHeight fork)).map (t.nHeight fork + 1 + ·)) cache₁
        = .ok cache ∧ Performs start (cache.setBestBlock new)
      (undoWrites ++ (trail t.pprev m new).reverse.flatMap t.writesAt) := by
  have grown := height_up t.graded hf
  have count : t.nHeight new - t.nHeight fork = m := by omega
  have ancestors : ((List.range m).map (t.nHeight fork + 1 + ·)).map
    (getAncestor t.pprev t.nHeight new) = (trail t.pprev m new).reverse.map some := by
    rw [map_map]
    exact getAncestor_trail t.graded hf
  obtain ⟨cache, ok, hrf⟩ := rollforward_performs hrb.valid ancestors
    fun h hm => parent_of_mem_trail hf (mem_reverse.mp hm)
  refine ⟨cache, by rw [count]; exact ok, ?_⟩
  exact (hrb.trans hrf).before_same (ConnectBlockSpec.setBestBlock_same hrf.valid new)

/-- The blocks that `ReplayBlocks` rolls back from the old tip and forward to the new one. -/
structure Branches (t : Tree) (new old fork : Uint256) (n m : ℕ) : Prop where
  back : (old = 0 ∧ fork = t.genesis ∧ n = 0) ∨ up t.pprev n old = some fork
  forth : up t.pprev m new = some fork
  apart : ∀ h ∈ trail t.pprev n old, Ancestor t.pprev h old ∧ ¬ Ancestor t.pprev h new

/-- What `ReplayBlocks` flushes: the old branch undone and the new one redone, on top of
whatever coins the database holds. -/
lemma replayBlocks_replays {db : CCoinsViewDB} (hh : db.headBlocks = [new, old])
  (hnt : t.Contains new) (oldTip : old = 0 ∨ t.Contains old) :
  ∃ fork n m cache, Branches t new old fork n m ∧ replayBlocks t db = .ok (some cache) ∧
    Valid true cache.toView ∧ cache.base.peekCoin = db.getCoin ∧ cache.layer.hashBlock = new ∧
    cache.peekCoin = apply (apply db.getCoin ((trail t.pprev n old).flatMap t.undoWritesAt))
      ((trail t.pprev m new).reverse.flatMap t.writesAt) := by
  set start : CCoinsViewCache := ⟨CacheLayer.new false, .bottom db.toCoinsViewBottom⟩ with hstart
  have startValid : Valid true start.toView := ⟨layerValid_empty rfl rfl, trivial⟩
  have startShows : start.peekCoin = db.getCoin := by
    funext o
    exact peekCoin_of_no_entry _ _ _ rfl
  have unchanged : ∀ {v writes}, Performs start v writes → v.base.peekCoin = db.getCoin := by
    intro v writes hp
    have below := hp.below
    simp only [CCoinsViewCache.toView, CoinsInvariant.views, tail_cons] at below
    exact peekCoin_eq_of_views below
  have shows : ∀ {v first hs}, Performs start v (first ++ hs) →
    v.peekCoin = apply (apply db.getCoin first) hs := by
    intro v first hs hp
    rw [hp.peekCoin, startShows, apply_append]
  rcases oldTip with rfl | oldTip
  · obtain ⟨m, forth⟩ := genesis_ancestor hnt
    obtain ⟨cache, ok, hp⟩ := rollforward_finishes (.of_same (.refl startValid)) forth
    refine ⟨t.genesis, 0, m, cache.setBestBlock new, ⟨Or.inl ⟨rfl, rfl, rfl⟩, forth, ?_⟩, ?_,
      hp.valid, unchanged hp, rfl, shows hp⟩
    · intro h hm
      cases hm
    have contains : (t.blockIndex new).isSome = true := hnt
    rw [nHeight_genesis] at ok
    simp only [replayBlocks, hh, contains, if_true, replayFork, bind, Except.bind,
      Option.elim_none, ← hstart, ok]
  · obtain ⟨fork, hf, aboveOld, aboveNew, last⟩ := lastCommonAncestor_spec t.graded
      (genesis_ancestor oldTip) (genesis_ancestor hnt)
    obtain ⟨n, back⟩ := aboveOld
    obtain ⟨m, forth⟩ := aboveNew
    have grown := height_up t.graded back
    obtain ⟨cache₁, okBack, rolledBack⟩ :=
      rollback_performs startValid back (show n ≤ t.nHeight old by omega)
    obtain ⟨cache, ok, hp⟩ := rollforward_finishes rolledBack forth
    refine ⟨fork, n, m, cache.setBestBlock new, ⟨Or.inr back, forth, ?_⟩, ?_, hp.valid,
      unchanged hp, rfl, shows hp⟩
    · intro h hm
      obtain ⟨below, onOld⟩ := height_lt_of_mem_trail t.graded back hm
      refine ⟨onOld, fun onNew => ?_⟩
      have notBelow := (last h onOld onNew).height_le t.graded
      omega
    · have notNull : old ≠ 0 := ne_zero_of_contains oldTip
      have contains : (t.blockIndex new).isSome = true := hnt
      have containsOld : (t.blockIndex old).isSome = true := oldTip
      simp only [replayBlocks, hh, contains, containsOld, if_true, replayFork, notNull, if_false,
        hf, bind, Except.bind, Option.elim_some, ← hstart, okBack, ok]

end

section
variable {t : Tree} {new old : Uint256} {db : CCoinsViewDB} {batches : List CDBBatch}

/-- The database in the middle of a flush from `old` to `new`. -/
structure Interrupted (t : Tree) (new old : Uint256) (db : CCoinsViewDB) : Prop where
  bestBlock : db.bestBlock = 0
  headBlocks : db.headBlocks = [new, old]
  mixed : ∀ o, db.getCoin o = t.utxo old o ∨ db.getCoin o = t.utxo new o

/-- The database after a flush to `new`. -/
structure Complete (t : Tree) (new : Uint256) (db : CCoinsViewDB) : Prop where
  bestBlock : db.bestBlock = new
  headBlocks : db.headBlocks = []
  coins : db.getCoin = t.utxo new

/-- The assumptions on the two tips. -/
structure Tips (t : Tree) (new old : Uint256) : Prop where
  newTip : t.Contains new
  oldTip : old = 0 ∨ t.Contains old
  noOverwrite : ∀ h, Ancestor t.pprev h old → ¬ Ancestor t.pprev h new → t.NoOverwrite h

/-- Replaying an interrupted flush prepares the coins of the new tip. -/
lemma replayBlocks_recovers (tips : Tips t new old) (hi : Interrupted t new old db) :
  ∃ cache, replayBlocks t db = .ok (some cache) ∧ Valid true cache.toView ∧
    cache.base.peekCoin = db.getCoin ∧ cache.layer.hashBlock = new ∧
    cache.peekCoin = t.utxo new := by
  obtain ⟨fork, n, m, cache, branches, ok, hv, base, hash, hs⟩ :=
    replayBlocks_replays hi.headBlocks tips.newTip tips.oldTip
  refine ⟨cache, ok, hv, base, hash, ?_⟩
  have noOverwrite : ∀ h ∈ trail t.pprev n old, t.NoOverwrite h := by
    intro h hm
    obtain ⟨onOld, notOnNew⟩ := branches.apart h hm
    exact tips.noOverwrite h onOld notOnNew
  have forth := utxo_branch branches.forth
  rw [hs]
  rcases branches.back with ⟨rfl, rfl, rfl⟩ | back
  · have nothing : t.utxo 0 = t.utxo t.genesis := by
      rw [utxo_genesis]
      refine utxo_of_nHeight_zero ?_
      simp only [Tree.nHeight, BlockTree.nHeight, t.null, Option.elim_none]
    have undone : apply (t.utxo 0) [] = t.utxo t.genesis := nothing
    have redone : apply (t.utxo t.genesis) [] = t.utxo 0 := nothing.symm
    exact apply_replay undone redone (by simp) forth hi.mixed
  · exact apply_replay (undo_branch back noOverwrite) (utxo_branch back)
      (branch_covered back) forth hi.mixed

lemma flush_recovers (full : CDBBatch → Bool) (tips : Tips t new old)
  (hi : Interrupted t new old db) : ∃ cache batches, replayBlocks t db = .ok (some cache) ∧
    flushBatches full db cache = .ok batches ∧ Flushes db new old (t.utxo new) batches := by
  obtain ⟨cache, ok, hv, base, hash, hs⟩ := replayBlocks_recovers tips hi
  have notNull : new ≠ 0 := ne_zero_of_contains tips.newTip
  have tip : oldTip db cache.layer.hashBlock = .ok old := by
    rw [oldTip, if_pos hi.bestBlock, hi.headBlocks]
    exact if_pos hash.symm
  obtain ⟨batches, hf, hfl⟩ := flushBatches_flushes full hv base (by rwa [hash]) tip
  rw [hash, hs] at hfl
  exact ⟨cache, batches, ok, hf, hfl⟩

/-- Between two batches of a flush from an interrupted state the state is one again. -/
lemma Flushes.interrupted (hf : Flushes db new old (t.utxo new) batches)
  (hm : ∀ o, db.getCoin o = t.utxo old o ∨ db.getCoin o = t.utxo new o)
  {k : ℕ} (some : 1 ≤ k) (hp : k < batches.length) :
  Interrupted t new old (db.writeBatches (batches.take k)) := by
  obtain ⟨best, heads, coins⟩ := hf.between k some hp
  refine ⟨best, heads, fun o => ?_⟩
  rcases coins o with hs | hd
  · rw [hs]
    exact hm o
  · exact inr hd

lemma Flushes.complete (hf : Flushes db new old (t.utxo new) batches) :
  Complete t new (db.writeBatches batches) :=
  ⟨hf.bestBlock, hf.headBlocks, hf.coins⟩

variable (full : CDBBatch → Bool) {db : CCoinsViewDB}
include full

/-- Once the flush is done, restarts change nothing. -/
lemma restarts_of_complete (complete : Complete t new db) (crashes : List ℕ) :
  restarts t full db crashes = .ok db := by
  have nothing : replayBlocks t db = .ok none := by simp [replayBlocks, complete.headBlocks]
  induction crashes with
  | nil => simp only [restarts, replay, nothing, bind, Except.bind]
  | cons written rest ih =>
    simp only [restarts, replayUntil, nothing, bind, Except.bind]
    exact ih

variable (tips : Tips t new old) (hi : Interrupted t new old db)
include tips hi

/-- A restart that is interrupted again leaves the flush interrupted, or done. -/
lemma replayUntil_step (written : ℕ) :
  ∃ db', replayUntil t full db written = .ok db' ∧
    (Interrupted t new old db' ∨ Complete t new db') := by
  obtain ⟨cache, batches, ok, hf, hfl⟩ := flush_recovers full tips hi
  refine ⟨db.writeBatches (batches.take written), ?_, ?_⟩
  · simp only [replayUntil, ok, bind, Except.bind, hf]
  rcases eq_zero_or_pos written with rfl | some
  · exact inl hi
  rcases lt_or_ge written batches.length with partly | all
  · exact inl (hfl.interrupted hi.mixed some partly)
  · rw [take_of_length_le all]
    exact inr hfl.complete

lemma replay_completes : ∃ db', replay t full db = .ok db' ∧ Complete t new db' := by
  obtain ⟨cache, batches, ok, hf, hfl⟩ := flush_recovers full tips hi
  refine ⟨db.writeBatches batches, ?_, hfl.complete⟩
  simp only [replay, ok, bind, Except.bind, hf]

lemma restarts_complete (crashes : List ℕ) :
  ∃ db', restarts t full db crashes = .ok db' ∧ Complete t new db' := by
  induction crashes generalizing db with
  | nil => exact replay_completes full tips hi
  | cons written rest ih =>
    obtain ⟨db₁, ok, state⟩ := replayUntil_step full tips hi written
    have step : restarts t full db (written :: rest) = restarts t full db₁ rest := by
      simp only [restarts, ok, bind, Except.bind]
    rw [step]
    rcases state with hi | complete
    · exact ih hi
    · exact ⟨db₁, restarts_of_complete full complete rest, complete⟩

end

/-- Crash recovery: a flush from the coins of `old` (null for a first flush) to those of `new`
may stop after any of its partial batches, and so may the flush of every restart; the first one
that does not leaves exactly the coins of `new`, provided no block that only the old chain has
overwrote an unspent coin. -/
theorem replay_recovers_interrupted_flush (t : Tree) (full : CDBBatch → Bool) (new old : Uint256)
  (newTip : t.Contains new) (oldTip : old = 0 ∨ t.Contains old)
  (noOverwrite : ∀ h, Ancestor t.pprev h old → ¬ Ancestor t.pprev h new → t.NoOverwrite h)
  (db : CCoinsViewDB) (dbBest : db.bestBlock = old) (dbHeads : db.headBlocks = [])
  (dbCoins : db.getCoin = t.utxo old) (cache : CCoinsViewCache) (valid : Valid true cache.toView)
  (base : cache.base = .bottom db.toCoinsViewBottom) (best : cache.layer.hashBlock = new)
  (coins : cache.peekCoin = t.utxo new) : ∃ batches, flushBatches full db cache = .ok batches ∧
    ∀ k, 1 ≤ k → k < batches.length → ∀ crashes,
      ∃ db', restarts t full (db.writeBatches (batches.take k)) crashes = .ok db' ∧
        db'.bestBlock = new ∧ db'.headBlocks = [] ∧ db'.getCoin = t.utxo new := by
  have below : cache.base.peekCoin = db.getCoin := by
    rw [base]
    rfl
  have tip : ReplayBlocks.oldTip db cache.layer.hashBlock = .ok old := by
    unfold ReplayBlocks.oldTip
    split
    · next null => rw [dbHeads, ← dbBest, null]
    · rw [dbBest]
  have notNull : cache.layer.hashBlock ≠ 0 := by
    rw [best]
    exact ne_zero_of_contains newTip
  obtain ⟨batches, hf, hfl⟩ := flushBatches_flushes full valid below notNull tip
  rw [best, coins] at hfl
  refine ⟨batches, hf, fun k some partly crashes => ?_⟩
  have mixed : ∀ o, db.getCoin o = t.utxo old o ∨ db.getCoin o = t.utxo new o := fun o =>
    Or.inl (congrFun dbCoins o)
  have interrupted := hfl.interrupted mixed some partly
  obtain ⟨db', ok, complete⟩ :=
    restarts_complete full ⟨newTip, oldTip, noOverwrite⟩ interrupted crashes
  exact ⟨db', ok, complete.bestBlock, complete.headBlocks, complete.coins⟩

variable {hash : Uint256}

/-- The repeated coinbase, and one that makes no coin. -/
def repeatedCoinbase : CTransaction :=
  ⟨[⟨⟨0, COutPoint.nullIndex⟩, [0x51, 0x51], 0, []⟩], [⟨50, [0x51]⟩], 1, 0, 500, 500⟩

def burntCoinbase : CTransaction :=
  ⟨[⟨⟨0, COutPoint.nullIndex⟩, [0x51, 0x51], 0, []⟩], [⟨50, [opReturn]⟩], 1, 0, 600, 600⟩

def blockOf (hash : Uint256) (pprev : Option Uint256) (nHeight : ℕ) (coinbase : CTransaction) :
  StoredBlock :=
  ⟨pprev, nHeight, ⟨hash, [coinbase]⟩, []⟩

/-- The exempt block at height 91842, and a rival of it. -/
def exemptHash : Uint256 :=
  0x00000000000a4d0a398161ffc163c503763b1f4360639393e0e4c8e300e0caec#256

def rivalHash : Uint256 := 91843#256

/-- A trunk of blocks with the hashes 1 to 91842, the second of which makes a coin. -/
def repeatIndex (hash : Uint256) : Option StoredBlock :=
  if hash = exemptHash then some (blockOf hash (some 91842#256) 91842 repeatedCoinbase)
  else if hash = rivalHash then some (blockOf hash (some 91842#256) 91842 burntCoinbase)
  else if hash = 1 then some (blockOf hash none 0 burntCoinbase)
  else if hash = 2 then some (blockOf hash (some 1) 1 repeatedCoinbase)
  else if hash.toNat ≤ 91842 ∧ hash ≠ 0 then
    some (blockOf hash (some (hash - 1)) (hash.toNat - 1) burntCoinbase)
  else none

lemma connects_coinbase {coinbase : CTransaction} (isCoinBase : coinbase.isCoinBase = true)
  (ho : ∀ out ∈ coinbase.vout, out.isNull = false) (nHeight : ℕ) (u : Utxo) :
  Connects false nHeight u [(coinbase, none)] := by
  have nothing : spent coinbase = [] := by simp [spent, isCoinBase]
  refine ⟨⟨isCoinBase, by simp [taken], by simp [nothing], ho, ?_⟩, trivial⟩
  rintro (impossible | hcb)
  · cases impossible
  · rw [isCoinBase] at hcb
    cases hcb

lemma repeatIndex_block {b : StoredBlock} (hf : repeatIndex hash = some b) :
  ∃ coinbase, (coinbase = repeatedCoinbase ∨ coinbase = burntCoinbase) ∧
    b.undo = [] ∧ b.block.vtx = [coinbase] := by
  unfold repeatIndex at hf
  split_ifs at hf
  all_goals
    cases hf
    first
    | exact ⟨_, inl rfl, rfl, rfl⟩
    | exact ⟨_, inr rfl, rfl, rfl⟩

lemma repeatIndex_above (hl : 3 ≤ hash.toNat) (hb : hash.toNat ≤ 91842) :
  repeatIndex hash = some (blockOf hash (some (hash - 1)) (hash.toNat - 1) burntCoinbase) := by
  have notExempt : ¬ hash = exemptHash := by
    rintro rfl
    exact absurd hb (by decide)
  have notRival : ¬ hash = rivalHash := by
    rintro rfl
    exact absurd hb (by decide)
  have notOne : ¬ hash = 1 := by bv_omega
  have notTwo : ¬ hash = 2 := by bv_omega
  have notNull : hash ≠ 0 := by bv_omega
  rw [repeatIndex, if_neg notExempt, if_neg notRival, if_neg notOne, if_neg notTwo,
    if_pos ⟨hb, notNull⟩]

lemma repeatIndex_trunk (hn : hash ≠ 0) (hb : hash.toNat ≤ 91842) :
  ∃ b, repeatIndex hash = some b ∧ b.nHeight = hash.toNat - 1 := by
  by_cases one : hash = 1
  · subst one
    exact ⟨_, rfl, rfl⟩
  by_cases two : hash = 2
  · subst two
    exact ⟨_, rfl, rfl⟩
  · have large : 3 ≤ hash.toNat := by bv_omega
    exact ⟨_, repeatIndex_above large hb, rfl⟩

lemma repeatIndex_rooted (hash : Uint256) (b : StoredBlock)
  (hf : repeatIndex hash = some b) : (b.pprev = none ∧ b.nHeight = 0 ∧ hash = 1) ∨
    ∃ p b', b.pprev = some p ∧ repeatIndex p = some b' ∧ b.nHeight = b'.nHeight + 1 := by
  obtain ⟨trunk, trunkFound, trunkHeight⟩ :=
    repeatIndex_trunk (show (91842#256 : Uint256) ≠ 0 by decide) (by decide)
  have trunkHeight := trunkHeight
  unfold repeatIndex at hf
  split_ifs at hf with exempt rival one two inTrunk
  · cases hf
    exact inr ⟨_, trunk, rfl, trunkFound, by rw [trunkHeight]; rfl⟩
  · cases hf
    exact inr ⟨_, trunk, rfl, trunkFound, by rw [trunkHeight]; rfl⟩
  · cases hf
    exact inl ⟨rfl, rfl, one⟩
  · cases hf
    exact inr ⟨1, _, rfl, rfl, rfl⟩
  · cases hf
    have notNull : hash - 1 ≠ 0 := by bv_omega
    have parent : (hash - 1).toNat = hash.toNat - 1 := by bv_omega
    obtain ⟨b', parentFound, parentHeight⟩ := repeatIndex_trunk notNull (by omega)
    refine inr ⟨hash - 1, b', rfl, parentFound, ?_⟩
    have : (blockOf hash (some (hash - 1)) (hash.toNat - 1) burntCoinbase).nHeight
      = hash.toNat - 1 := rfl
    have large : 3 ≤ hash.toNat := by bv_omega
    omega

def repeatTree : Tree where
  blockIndex := repeatIndex
  genesis := 1
  null := by decide
  rooted := repeatIndex_rooted
  length := by
    intro hash b p found isParent
    obtain ⟨coinbase, -, undo, vtx⟩ := repeatIndex_block found
    simp [undo, vtx]
  connects := by
    intro hash b p found isParent
    obtain ⟨coinbase, kind, undo, vtx⟩ := repeatIndex_block found
    have list : b.undone = [(coinbase, none)] := by
      simp [StoredBlock.undone, undoneTxs, undo, vtx]
    rw [list]
    rcases kind with rfl | rfl
    · exact connects_coinbase rfl (by decide) _ _
    · exact connects_coinbase rfl (by decide) _ _

def repeatedOutPoint : COutPoint := ⟨500, 0⟩

def coinAt (nHeight : ℕ) : Coin := ⟨⟨50, [0x51]⟩, true, nHeight⟩

/-- The set of unspent coins that holds the repeated coinbase of the given height. -/
def holding (nHeight : ℕ) : Utxo :=
  update (fun _ => none) repeatedOutPoint (some (coinAt nHeight))

lemma utxo_trunk (hl : 2 ≤ hash.toNat) (hb : hash.toNat ≤ 91842) :
  repeatTree.utxo hash = holding 1 := by
  generalize size : hash.toNat = n at hl
  induction n, hl using Nat.le_induction generalizing hash with
  | base =>
    obtain rfl : hash = 2 := by bv_omega
    have genesis : repeatTree.utxo 1 = fun _ => none := utxo_genesis
    have found : repeatTree.blockIndex 2 = some (blockOf 2 (some 1) 1 repeatedCoinbase) := rfl
    rw [utxo_step found rfl, genesis]
    rfl
  | succ n hl ih =>
    have found := repeatIndex_above (by omega) hb
    have parent : (hash - 1).toNat = n := by bv_omega
    rw [utxo_step found rfl, ih (by omega) parent]
    rfl

lemma utxo_fork : repeatTree.utxo 91842#256 = holding 1 :=
  utxo_trunk (by decide) (by decide)

lemma exempt_found : repeatTree.blockIndex exemptHash
  = some (blockOf exemptHash (some 91842#256) 91842 repeatedCoinbase) := rfl

lemma rival_found : repeatTree.blockIndex rivalHash
  = some (blockOf rivalHash (some 91842#256) 91842 burntCoinbase) := rfl

lemma utxo_exempt : repeatTree.utxo exemptHash = holding 91842 := by
  rw [utxo_step exempt_found rfl, utxo_fork]
  exact update_idem _ _ _

lemma utxo_rival : repeatTree.utxo rivalHash = holding 1 := by
  rw [utxo_step rival_found rfl, utxo_fork]
  rfl

/-- A database at the given tip with the repeated coinbase of the given height. -/
def repeatDb (tip : Uint256) (nHeight : ℕ) : CCoinsViewDB :=
  ⟨{ CoinsViewBottom.new.insert repeatedOutPoint (coinAt nHeight) rfl with bestBlock := tip }, []⟩

/-- A cache over it that overwrites this coin with the one of another height. -/
def repeatCache (db : CCoinsViewDB) (tip : Uint256) (nHeight : ℕ) : CCoinsViewCache where
  layer := { (CacheLayer.new false).putEntry repeatedOutPoint ⟨coinAt nHeight, true, false⟩ with
    hashBlock := tip }
  base := .bottom db.toCoinsViewBottom

lemma repeatDb_coins (tip : Uint256) (nHeight : ℕ) :
  (repeatDb tip nHeight).getCoin = holding nHeight := by
  funext o
  by_cases hs : o = repeatedOutPoint
  · subst hs
    rw [holding, update_self]
    exact AList.lookup_insert _
  · rw [holding, update_of_ne hs]
    exact (AList.lookup_insert_ne hs).trans (AList.lookup_empty o)

lemma repeatCache_shows (tip tip' : Uint256) (nHeight nHeight' : ℕ) :
  Valid true (repeatCache (repeatDb tip nHeight) tip' nHeight').toView ∧
    (repeatCache (repeatDb tip nHeight) tip' nHeight').peekCoin = holding nHeight' := by
  set start : CCoinsViewCache :=
    ⟨CacheLayer.new false, .bottom (repeatDb tip nHeight).toCoinsViewBottom⟩ with hstart
  have startValid : Valid true start.toView := ⟨layerValid_empty rfl rfl, trivial⟩
  have startShows : start.peekCoin = holding nHeight := by
    rw [← repeatDb_coins tip nHeight]
    funext o
    exact peekCoin_of_no_entry _ _ _ rfl
  have put : Replaced start.layer (repeatCache (repeatDb tip nHeight) tip' nHeight').layer
    repeatedOutPoint (some ⟨coinAt nHeight', true, false⟩) := replaced_put rfl rfl
  have shows := put.shows startValid (by simpa using entryValid_written rfl (by simp))
  refine ⟨shows.valid, ?_⟩
  have shown := shows.peekCoin
  rw [startShows] at shown
  exact shown.trans (update_idem _ _ _)

lemma exempt_pprev : repeatTree.pprev exemptHash = some 91842#256 :=
  pprev_eq exempt_found

lemma rival_pprev : repeatTree.pprev rivalHash = some 91842#256 :=
  pprev_eq rival_found

lemma repeat_branches {fork : Uint256} {n m : ℕ}
  (hb : Branches repeatTree rivalHash exemptHash fork n m) : n = 1 ∧ m = 1 := by
  have back : up repeatTree.pprev n exemptHash = some fork := by
    rcases hb.back with ⟨null, -, -⟩ | back
    · exact absurd null (by decide)
    · exact back
  have heightOld := height_up repeatTree.graded back
  have heightNew := height_up repeatTree.graded hb.forth
  rw [nHeight_eq exempt_found] at heightOld
  rw [nHeight_eq rival_found] at heightNew
  have level : n = m := by
    have : (blockOf exemptHash (some 91842#256) 91842 repeatedCoinbase).nHeight
      = (blockOf rivalHash (some 91842#256) 91842 burntCoinbase).nHeight := rfl
    omega
  subst level
  match n, back, hb with
  | 0, back, hb =>
    have atOld : fork = exemptHash := (Option.some.inj back).symm
    have atNew : fork = rivalHash := (Option.some.inj hb.forth).symm
    exact absurd (atOld.symm.trans atNew) (by decide)
  | 1, _, _ => exact ⟨rfl, rfl⟩
  | k + 2, back, hb =>
    have onTrail : 91842#256 ∈ trail repeatTree.pprev (k + 2) exemptHash := by
      rw [trail_of_parent exempt_pprev]
      exact .tail _ (.head _)
    exact absurd (Ancestor.of_parent rival_pprev) (hb.apart _ onTrail).2

/-- Without the condition on the old branch the theorem fails: the coinbase of one of the two
blocks exempt from BIP30 overwrites a coin, and undoing the block loses that coin. -/
theorem replay_loses_overwritten_coin :
  ∃ (t : Tree) (new old : Uint256) (db : CCoinsViewDB) (cache : CCoinsViewCache)
    (batches : List CDBBatch) (db' : CCoinsViewDB),
    t.Contains new ∧ t.Contains old ∧ isBIP30Repeat (position t.blockIndex old) = true ∧
    db.bestBlock = old ∧ db.headBlocks = [] ∧ db.getCoin = t.utxo old ∧
    Valid true cache.toView ∧ cache.base = .bottom db.toCoinsViewBottom ∧
    cache.layer.hashBlock = new ∧ cache.peekCoin = t.utxo new ∧
    flushBatches (fun _ => true) db cache = .ok batches ∧ 1 < batches.length ∧
    restarts t (fun _ => true) (db.writeBatches (batches.take 1)) [] = .ok db' ∧
    db'.getCoin ≠ t.utxo new := by
  have newTip : repeatTree.Contains rivalHash := rfl
  have oldTip : repeatTree.Contains exemptHash := rfl
  set db := repeatDb exemptHash 91842 with hdb
  set cache := repeatCache db rivalHash 1 with hcache
  obtain ⟨hv, hs⟩ := repeatCache_shows exemptHash rivalHash 91842 1
  obtain ⟨batches, hf, several⟩ : ∃ batches,
    flushBatches (fun _ => true) db cache = .ok batches ∧ 1 < batches.length :=
    ⟨_, rfl, by decide⟩
  have heads : (db.writeBatches (batches.take 1)).headBlocks = [rivalHash, exemptHash] := by
    cases hf
    rfl
  have null : (db.writeBatches (batches.take 1)).bestBlock = 0 := by
    cases hf
    rfl
  obtain ⟨fork, n, m, cache', branches, ok, hv', base, hash, hs'⟩ :=
    replayBlocks_replays heads newTip (Or.inr oldTip)
  obtain ⟨rfl, rfl⟩ := repeat_branches branches
  have tip : ReplayBlocks.oldTip (db.writeBatches (batches.take 1)) cache'.layer.hashBlock
    = .ok exemptHash := by
    rw [ReplayBlocks.oldTip, if_pos null, heads, hash]
    rfl
  have notNull : cache'.layer.hashBlock ≠ 0 := by
    rw [hash]
    decide
  obtain ⟨batches', hf', hfl⟩ := flushBatches_flushes (fun _ => true) hv' base notNull tip
  have lost : cache'.peekCoin repeatedOutPoint = none := by
    rw [hs']
    rfl
  refine ⟨repeatTree, rivalHash, exemptHash, db, cache, batches,
    (db.writeBatches (batches.take 1)).writeBatches batches', newTip, oldTip, ?_, rfl, rfl, ?_, hv,
    rfl, rfl, ?_, hf, several, ?_, ?_⟩
  · have height := position_nHeight oldTip
    rw [nHeight_eq exempt_found] at height
    have : (position repeatTree.blockIndex exemptHash).nHeight = 91842 := height
    rw [isBIP30Repeat, this]
    rfl
  · rw [utxo_exempt]
    exact repeatDb_coins _ _
  · rw [utxo_rival]
    exact hs
  · simp only [restarts, replay, ok, bind, Except.bind, hf']
  · intro hsa
    have here := congrFun hsa repeatedOutPoint
    rw [hfl.coins, lost, utxo_rival, holding, update_self] at here
    cases here

/-- The other way round the coin survives: the exempt block is then on the new branch. -/
theorem replay_recovers_exempt_block :
  ∃ batches, flushBatches (fun _ => true) (repeatDb rivalHash 1)
      (repeatCache (repeatDb rivalHash 1) exemptHash 91842) = .ok batches ∧ 1 < batches.length ∧
    ∃ db', restarts repeatTree (fun _ => true)
        ((repeatDb rivalHash 1).writeBatches (batches.take 1)) [1, 0] = .ok db' ∧
      db'.bestBlock = exemptHash ∧ db'.getCoin repeatedOutPoint = some (coinAt 91842) := by
  obtain ⟨hv, hs⟩ := repeatCache_shows rivalHash exemptHash 1 91842
  have noOverwrite : ∀ h, Ancestor repeatTree.pprev h rivalHash →
    ¬ Ancestor repeatTree.pprev h exemptHash → repeatTree.NoOverwrite h := by
    intro h onOld notOnNew
    rcases onOld.eq_or_above with rfl | ⟨p, edge, ha⟩
    · intro b p hf hp tx hm _ q hc
      cases rival_found.symm.trans hf
      obtain rfl : tx = burntCoinbase := mem_singleton.mp hm
      cases hc
    · cases rival_pprev.symm.trans edge
      exact absurd (Ancestor.step exempt_pprev ha) notOnNew
  obtain ⟨batches, hfl, recovers⟩ := replay_recovers_interrupted_flush repeatTree
    (fun _ => true) exemptHash rivalHash rfl (Or.inr rfl) noOverwrite (repeatDb rivalHash 1) rfl rfl
    (by rw [utxo_rival]; exact repeatDb_coins _ _)
    (repeatCache (repeatDb rivalHash 1) exemptHash 91842) hv rfl rfl
    (by rw [utxo_exempt]; exact hs)
  have several : 1 < batches.length := by
    cases hfl
    decide
  obtain ⟨db', ok, best, -, coins⟩ := recovers 1 (Nat.le_refl 1) several [1, 0]
  refine ⟨batches, hfl, several, db', ok, best, ?_⟩
  rw [coins, utxo_exempt, holding, update_self]

end CrashRecovery
