import Andaluzcoin.TxOrphanageLimits

/-!
# The orphanage over all calls

Whatever is called, the orphanage passes its own check, stays within its limits and keeps what a
peer has within its share.
-/

namespace TxOrphanage

open Transaction KeyedSum TxOrphanageImpl Relation List Finset CTransaction Call

variable {s s' start : TxOrphanageImpl} {l : List Announcement} {a : Announcement} {maxLat : ℕ}
  {maxMem : ℤ} {txs : Set CTransaction}

section
variable {outpoint : COutPoint} {M : Type*}

lemma reconstructedPeerInfo_kept (l : List Announcement) : PeersKept (reconstructedPeerInfo l) l := by
  induction l with
  | nil => exact fun peer => rfl
  | cons a l ih => exact ih.cons a

lemma mem_uniqueWtxidsToScores {wtxid : Wtxid} :
  wtxid ∈ uniqueWtxidsToScores l ↔ ∃ a ∈ l, a.wtxid = wtxid := by
  induction l with
  | nil => simp [uniqueWtxidsToScores]
  | cons a l ih =>
    rw [uniqueWtxidsToScores, exists_mem_cons_iff]
    split_ifs with again
    · rw [ih, or_iff_right_of_imp]
      exact fun hs => ih.mp (hs ▸ again)
    · rw [AList.mem_insert, ih, eq_comm]

section
variable (hst : ∀ a ∈ l, ∀ b ∈ l, a.wtxid = b.wtxid → a.tx = b.tx)
include hst

lemma lookup_uniqueWtxidsToScores : ∀ a ∈ l, (uniqueWtxidsToScores l).lookup a.wtxid
    = some ((getTransactionWeight a.tx : ℤ), inputScore a.tx) := by
  induction l with
  | nil => simp
  | cons first l ih =>
    have later := ih fun a hm b hm' => hst a (.tail _ hm) b (.tail _ hm')
    have known : ∀ a ∈ l, a.wtxid ∈ uniqueWtxidsToScores l := fun a hm =>
      mem_uniqueWtxidsToScores.mpr ⟨a, hm, rfl⟩
    rw [uniqueWtxidsToScores]
    split_ifs with again
    · refine forall_mem_cons.mpr ⟨?_, later⟩
      obtain ⟨b, hm, hs⟩ := mem_uniqueWtxidsToScores.mp again
      rw [← hs, later b hm, hst b (.tail _ hm) first (.head _) hs]
    refine forall_mem_cons.mpr ⟨?_, fun a hm => ?_⟩
    · rw [AList.lookup_insert, getLatencyScore_eq, Nat.add_sub_cancel]
      rfl
    · have other : a.wtxid ≠ first.wtxid := fun hs => again (hs ▸ known a hm)
      rw [AList.lookup_insert_ne other, later a hm]

lemma witnessHash_injOn : Set.InjOn witnessHash (transactions l) := by
  intro tx hm tx' hm' hs
  obtain ⟨a, inList, rfl⟩ := mem_transactions.mp hm
  obtain ⟨b, inList', rfl⟩ := mem_transactions.mp hm'
  exact hst a inList b inList' hs

end

lemma keys_uniqueWtxidsToScores (l : List Announcement) :
  (uniqueWtxidsToScores l).keys.toFinset = (transactions l).image witnessHash := by
  ext wtxid
  rw [mem_toFinset, ← AList.mem_keys, mem_uniqueWtxidsToScores, mem_image]
  constructor
  · rintro ⟨a, hm, rfl⟩
    exact ⟨a.tx, mem_transactions.mpr ⟨a, hm, rfl⟩, rfl⟩
  · rintro ⟨tx, hm, rfl⟩
    obtain ⟨a, stored, rfl⟩ := mem_transactions.mp hm
    exact ⟨a, stored, rfl⟩

lemma sum_uniqueWtxidsToScores [AddCommMonoid M]
  (hst : ∀ a ∈ l, ∀ b ∈ l, a.wtxid = b.wtxid → a.tx = b.tx) (f : ℤ × ℕ → M) :
  ((uniqueWtxidsToScores l).entries.map fun entry => f entry.2).sum
    = ∑ tx ∈ transactions l, f ((getTransactionWeight tx : ℤ), inputScore tx) := by
  rw [sum_entries, keys_uniqueWtxidsToScores, sum_image (witnessHash_injOn hst)]
  refine sum_congr rfl fun tx hm => ?_
  obtain ⟨a, stored, rfl⟩ := mem_transactions.mp hm
  change ((uniqueWtxidsToScores l).lookup a.wtxid).elim 0 f = _
  rw [lookup_uniqueWtxidsToScores hst a stored, Option.elim_some]

lemma Consistent.sum_peers [AddCommMonoid M] (hc : Consistent s) (f : PeerDoSInfo → M) :
  (s.peerOrphanageInfo.entries.map fun entry => f entry.2).sum
    = ∑ peer ∈ s.peerOrphanageInfo.keys.toFinset, f (peerInfo s.orphans peer) := by
  rw [sum_entries]
  refine sum_congr rfl fun peer hm => ?_
  obtain ⟨info, hf⟩ := Option.isSome_iff_exists.mp (mem_keys_iff.mp (mem_toFinset.mp hm))
  rw [hf, Option.elim_some, hc.lookup_eq hf]

lemma mem_allOutpoints : outpoint ∈ s.allOutpoints ↔ ∃ a ∈ s.orphans, Spends a outpoint := by
  simp [allOutpoints, Spends]

variable (hc : Consistent s)
include hc

lemma Consistent.mem_outpoints :
  outpoint ∈ s.outpointToOrphanWtxids.keys ↔ ∃ a ∈ s.orphans, Spends a outpoint := by
  have links := hc.unique.outpoints.links outpoint
  rw [mem_keys_iff]
  constructor
  · intro hk
    obtain ⟨wtxids, hf⟩ := Option.isSome_iff_exists.mp hk
    obtain ⟨wtxid, hm⟩ : ∃ wtxid, wtxid ∈ wtxids := by
      refine exists_mem_of_ne_nil _ fun empty => ?_
      exact hc.unique.outpoints.live outpoint (empty ▸ hf)
    obtain ⟨a, stored, -, spends⟩ := (links wtxid).mp (by rwa [hf])
    exact ⟨a, stored, spends⟩
  · rintro ⟨a, stored, spends⟩
    have linked := (links a.wtxid).mpr ⟨a, stored, rfl, spends⟩
    cases hf : s.outpointToOrphanWtxids.lookup outpoint with
    | none => simp [hf] at linked
    | some wtxids => rfl

/-- There are not more announcements than pairs of a peer and a transaction. -/
lemma Consistent.length_le :
  s.orphans.length ≤ s.peerOrphanageInfo.keys.length * s.uniqueOrphans := by
  have pairs : (s.orphans.map fun ann => (ann.wtxid, ann.announcer)).toFinset
    ⊆ (transactions s.orphans).image witnessHash ×ˢ
      s.peerOrphanageInfo.keys.toFinset := by
    intro pair hm
    obtain ⟨ann, stored, rfl⟩ := mem_map.mp (mem_toFinset.mp hm)
    exact mem_product.mpr ⟨mem_image.mpr
      ⟨ann.tx, mem_transactions.mpr ⟨ann, stored, rfl⟩, rfl⟩, hc.announcer_mem ann stored⟩
  have le := card_le_card pairs
  rw [toFinset_card_of_nodup hc.keys, length_map, card_product,
    card_image_of_injOn (witnessHash_injOn hc.sameTx),
    toFinset_card_of_nodup s.peerOrphanageInfo.keys_nodup, ← hc.unique.count] at le
  rwa [mul_comm]

/-- An orphanage with its books in order and within its limits passes its check. -/
lemma Consistent.sanityCheck (fits : s.needsTrim = false) : s.SanityCheck := by
  have peers := entries_perm fun peer =>
    (reconstructedPeerInfo_kept s.orphans peer).trans (hc.peers peer).symm
  exact {
    reconsideredOnce := hc.reconsider.once
    peerCount := (peers.map Sigma.fst).length_eq
    peers := peers
    reconsiderable := by
      ext wtxid
      rw [hc.reconsider.set, reconsidered]
      simp [and_assoc, and_comm, and_left_comm]
    outpointCount := by
      refine ((perm_ext_iff_of_nodup (nodup_dedup _)
        s.outpointToOrphanWtxids.keys_nodup).mpr fun outpoint => ?_).length_eq
      exact mem_allOutpoints.trans hc.mem_outpoints.symm
    outpoints := by
      intro entry hm
      have found := AList.mem_lookup_iff.mpr hm
      refine ⟨?_, fun wtxid hl => ?_⟩
      · rw [mem_allOutpoints, ← hc.mem_outpoints, mem_keys_iff, found]
        rfl
      · obtain ⟨a, stored, hash, -⟩ := (hc.unique.outpoints.links entry.1 wtxid).mp (by rwa [found])
        exact mem_uniqueWtxidsToScores.mpr ⟨a, stored, hash⟩
    uniqueLe := by
      rw [hc.unique.count, transactions, ← length_map fun ann => ann.tx]
      exact toFinset_card_le _
    announcementsLe := hc.length_le
    unique := by
      rw [← toFinset_card_of_nodup (uniqueWtxidsToScores s.orphans).keys_nodup,
        keys_uniqueWtxidsToScores, hc.unique.count]
      exact card_image_of_injOn (witnessHash_injOn hc.sameTx)
    dedupUsage := by
      rw [hc.unique.usage]
      exact sum_uniqueWtxidsToScores hc.sameTx Prod.fst
    summedUsage := by
      rw [ge_iff_le, hc.sum_peers PeerDoSInfo.totalUsage]
      exact hc.usage_le
    dedupScores := by
      rw [hc.unique.scores]
      exact sum_uniqueWtxidsToScores hc.sameTx Prod.snd
    summedLatencyScore := by
      rw [ge_iff_le, hc.sum_peers PeerDoSInfo.totalLatencyScore]
      exact hc.latency_le
    withinLimits := by simp [fits] }

end

variable {peer : NodeId}

variable (txs : Set CTransaction) (maxGlobalLatencyScore : ℕ) (reservedPeerUsage : ℤ) in
/-- The orphanages that calls lead to, with transactions from a set and never more peers than the
latency score that is allowed. -/
inductive Reachable : TxOrphanageImpl → Prop
  | new : Reachable (.new maxGlobalLatencyScore reservedPeerUsage)
  | call {s s' : TxOrphanageImpl} (reached : Reachable s) (call : Call) (adds : call.Adds txs)
      (few : (call.unlimited s).peerOrphanageInfo.keys.length ≤ maxGlobalLatencyScore)
      (ran : call.run s = some s') : Reachable s'

lemma limitOrphans_eq_self (fits : s.needsTrim = false) : s.limitOrphans = some s := by
  rw [limitOrphans, if_neg (by simp [fits])]

lemma foldl_limits {α : Type} {f : TxOrphanageImpl → α → TxOrphanageImpl}
  (step : ∀ s a, (f s a).maxGlobalLatencyScore = s.maxGlobalLatencyScore ∧
    (f s a).reservedUsagePerPeer = s.reservedUsagePerPeer) (l : List α) (s : TxOrphanageImpl) :
  (l.foldl f s).maxGlobalLatencyScore = s.maxGlobalLatencyScore ∧
    (l.foldl f s).reservedUsagePerPeer = s.reservedUsagePerPeer := by
  induction l generalizing s with
  | nil => exact ⟨rfl, rfl⟩
  | cons a l ih =>
    have first := step s a
    have later := ih (f s a)
    exact ⟨later.1.trans first.1, later.2.trans first.2⟩

lemma emplace_limits {tx : CTransaction} (added : s.emplace tx peer = some s') :
  s'.maxGlobalLatencyScore = s.maxGlobalLatencyScore ∧
    s'.reservedUsagePerPeer = s.reservedUsagePerPeer := by
  rw [emplace] at added
  split at added
  · cases added
  · cases added
    exact ⟨rfl, rfl⟩

lemma Call.unlimited_limits (hc : Consistent s) (call : Call) :
  (call.unlimited s).maxGlobalLatencyScore = s.maxGlobalLatencyScore ∧
    (call.unlimited s).reservedUsagePerPeer = s.reservedUsagePerPeer := by
  have kept : WorkKept Set.univ s s := ⟨hc, fun _ _ => trivial, .refl s⟩
  cases call with
  | addTx tx peer =>
    rw [unlimited, addTxUnlimited]
    split
    · exact ⟨rfl, rfl⟩
    cases added : s.emplace tx peer with
    | none => exact ⟨rfl, rfl⟩
    | some s' =>
      have limits := emplace_limits added
      rw [Option.map_some, Option.getD_some]
      split_ifs
      · exact limits
      · exact ⟨limits.1, limits.2⟩
  | addAnnouncer wtxid peer =>
    rw [unlimited]
    cases added : s.addAnnouncerUnlimited wtxid peer with
    | none => exact ⟨rfl, rfl⟩
    | some s' =>
      obtain ⟨it, -, added⟩ := Option.bind_eq_some_iff.mp added
      exact emplace_limits added
  | getTxToReconsider peer => exact (kept.getTxToReconsider peer).size.limits
  | eraseTx wtxid => exact foldl_limits erase_limits _ s
  | eraseForPeer peer => exact foldl_limits erase_limits _ s
  | eraseForBlock vtx => exact foldl_limits (fun s _ => foldl_limits erase_limits _ s) _ s
  | addChildrenToWorkSet tx randrange => exact (kept.addChildrenToWorkSet tx randrange).size.limits

lemma eraseForBlockUnlimited_of_nil (empty : s.orphans = []) (vtx : List CTransaction) :
  s.eraseForBlockUnlimited vtx = s := by
  have nothing : ∀ wtxid, s.eraseTxInternal wtxid = s := fun wtxid => by
    rw [eraseTxInternal, byWtxid, empty]
    rfl
  rw [eraseForBlockUnlimited]
  induction s.wtxidsToErase vtx with
  | nil => rfl
  | cons wtxid wtxids ih => rw [foldl_cons, nothing, ih]

/-- From an orphanage within its limits a call is what it does itself, and then the limits. -/
lemma Call.run_eq (hc : Consistent s) (fits : s.needsTrim = false) (call : Call) :
  call.run s = (call.unlimited s).limitOrphans := by
  have kept : WorkKept Set.univ s s := ⟨hc, fun _ _ => trivial, .refl s⟩
  cases call with
  | addTx tx peer =>
    rw [run, TxOrphanageImpl.addTx, unlimited]
    cases s.addTxUnlimited tx peer with
    | none => exact (limitOrphans_eq_self fits).symm
    | some s' => simp [Option.map_map, Function.comp_def]
  | addAnnouncer wtxid peer =>
    rw [run, TxOrphanageImpl.addAnnouncer, unlimited]
    cases s.addAnnouncerUnlimited wtxid peer with
    | none => exact (limitOrphans_eq_self fits).symm
    | some s' => simp [Option.map_map, Function.comp_def]
  | getTxToReconsider peer =>
    exact (limitOrphans_eq_self ((kept.getTxToReconsider peer).size.trim.trans fits)).symm
  | eraseTx wtxid =>
    rw [run, TxOrphanageImpl.eraseTx, unlimited, Option.map_map]
    exact Option.map_id'
  | eraseForPeer peer =>
    rw [run, TxOrphanageImpl.eraseForPeer, unlimited]
    split_ifs with none
    · rw [eraseForPeerUnlimited, none]
      exact (limitOrphans_eq_self fits).symm
    · rfl
  | eraseForBlock vtx =>
    rw [run, TxOrphanageImpl.eraseForBlock, unlimited]
    split_ifs with empty
    · rw [eraseForBlockUnlimited_of_nil empty]
      exact (limitOrphans_eq_self fits).symm
    · rfl
  | addChildrenToWorkSet tx randrange =>
    exact (limitOrphans_eq_self
      ((kept.addChildrenToWorkSet tx randrange).size.trim.trans fits)).symm

/-- The peer, if it has anything, is within its share. -/
def WithinShare (maxLat : ℕ) (maxMem : ℤ) (s : TxOrphanageImpl) (peer : NodeId) : Prop :=
  ∀ info, s.peerOrphanageInfo.lookup peer = some info → ¬ Exceeds maxLat maxMem info

/-- Evictions from peers above their share take nothing from one within its share. -/
lemma kept_of_withinShare (hc : Consistent start)
  (evicted : ReflTransGen (Evicts maxLat maxMem) start s)
  (hw : WithinShare maxLat maxMem start peer) : Consistent s ∧ WithinShare maxLat maxMem s peer ∧
    ∀ ann ∈ start.orphans, ann.announcer = peer → ann ∈ s.orphans := by
  induction evicted with
  | refl => exact ⟨hc, hw, fun ann hm _ => hm⟩
  | tail _ evicts ih =>
    obtain ⟨hc, hw, hk⟩ := ih
    obtain ⟨evictee, hm, -, ⟨info, hf, he⟩, rfl⟩ := evicts
    have other : peer ≠ evictee.announcer := fun hs => hw info (hs ▸ hf) he
    refine ⟨hc.erase hm, fun info' hf' => ?_, fun ann stored theirs => ?_⟩
    · exact hw info' ((hc.lookup_erase hm other).symm.trans hf')
    · refine (mem_erase_of_ne fun hs => other ?_).mpr (hk ann stored theirs)
      rw [← theirs, hs]

/-- A call of an orphanage in order, with no more peers than it can have. -/
lemma Call.run_spec (hc : Consistent s) (hk : Known txs s) (fits : s.needsTrim = false)
  (hashes : txs.InjOn witnessHash) (hl : s.maxGlobalLatencyScore < 2 ^ 32)
  (hm : 0 < s.reservedUsagePerPeer ∧ s.reservedUsagePerPeer < 2 ^ 31) (call : Call)
  (adds : call.Adds txs)
  (few : (call.unlimited s).peerOrphanageInfo.keys.length ≤ s.maxGlobalLatencyScore) :
  ∃ s', call.run s = some s' ∧ s'.needsTrim = false ∧
    Trimming (call.unlimited s).maxPeerLatencyScore s.reservedUsagePerPeer (call.unlimited s) s' := by
  obtain ⟨score, usage⟩ := call.unlimited_limits hc
  obtain ⟨s', limited, ht, hf'⟩ := limitOrphans_spec
    (call.unlimited_consistent hc hk hashes adds).1 (by rwa [score]) (by rwa [score])
    (by rwa [usage])
  exact ⟨s', (call.run_eq hc fits).trans limited, hf', usage ▸ ht⟩

lemma new_consistent (maxGlobalLatencyScore : ℕ) (reservedPeerUsage : ℤ) :
  Consistent (.new maxGlobalLatencyScore reservedPeerUsage) where
  keys := nodup_nil
  sameTx := by simp [TxOrphanageImpl.new]
  peers := fun peer => rfl
  unique := ⟨rfl, rfl, rfl, by simp [TxOrphanageImpl.new], by simp [TxOrphanageImpl.new]⟩
  reconsider := ⟨by simp [TxOrphanageImpl.new], nodup_nil⟩

variable {maxGlobalLatencyScore : ℕ} {reservedPeerUsage : ℤ}

lemma Reachable.spec (hashes : txs.InjOn CTransaction.witnessHash)
  (hl : maxGlobalLatencyScore < 2 ^ 32) (hme : 0 < reservedPeerUsage ∧ reservedPeerUsage < 2 ^ 31)
  (reached : Reachable txs maxGlobalLatencyScore reservedPeerUsage s) :
  Consistent s ∧ Known txs s ∧ s.needsTrim = false ∧
    s.maxGlobalLatencyScore = maxGlobalLatencyScore ∧
    s.reservedUsagePerPeer = reservedPeerUsage := by
  induction reached with
  | new =>
    refine ⟨new_consistent _ _, by simp [Known, TxOrphanageImpl.new], ?_, rfl, rfl⟩
    simp [needsTrim, totalLatencyScore, maxGlobalUsage, TxOrphanageImpl.new, hme.1.le]
  | call reached call adds few ran ih =>
    obtain ⟨consistent, hk, hf, rfl, rfl⟩ := ih
    obtain ⟨s', ran', hf', ht⟩ := call.run_spec consistent hk hf hashes hl hme adds few
    obtain rfl := Option.some.inj (ran.symm.trans ran')
    obtain ⟨score, usage⟩ := call.unlimited_limits consistent
    have known' := (call.unlimited_consistent consistent hk hashes adds).2
    exact ⟨ht.consistent, fun ann hm => known' ann (ht.fewer ann hm), hf',
      ht.limits.1.trans score, ht.limits.2.trans usage⟩

/-- **The orphanage is fair.** After all calls it passes its own check, and so is within its limits.
Every call comes back; what it evicts it takes, one announcement after the other, from peers that
use more than their share, with the share that a peer has when the call begins to evict; and a peer
that is within its share then keeps all it has. -/
theorem orphanage_fair (hashes : txs.InjOn CTransaction.witnessHash)
  (latency : maxGlobalLatencyScore < 2 ^ 32)
  (memory : 0 < reservedPeerUsage ∧ reservedPeerUsage < 2 ^ 31)
  (reached : Reachable txs maxGlobalLatencyScore reservedPeerUsage s) :
  s.SanityCheck ∧ ∀ call : Call, call.Adds txs →
    (call.unlimited s).peerOrphanageInfo.keys.length ≤ maxGlobalLatencyScore →
    ∃ s', call.run s = some s' ∧ s'.SanityCheck ∧
      ReflTransGen (Evicts (call.unlimited s).maxPeerLatencyScore reservedPeerUsage)
        (call.unlimited s) s' ∧
      ∀ peer, WithinShare (call.unlimited s).maxPeerLatencyScore reservedPeerUsage
          (call.unlimited s) peer →
        ∀ ann ∈ (call.unlimited s).orphans, ann.announcer = peer → ann ∈ s'.orphans := by
  obtain ⟨consistent, hk, hf, rfl, rfl⟩ := reached.spec hashes latency memory
  refine ⟨consistent.sanityCheck hf, fun call adds few => ?_⟩
  obtain ⟨s', ran, hf', ht⟩ := call.run_spec consistent hk hf hashes latency memory adds few
  have start := (call.unlimited_consistent consistent hk hashes adds).1
  exact ⟨s', ran, ht.consistent.sanityCheck hf', ht.evicted,
    fun peer hw => (kept_of_withinShare start ht.evicted hw).2.2⟩

/-- A transaction with a number of inputs and a script of some length, with the number as its
hashes. -/
def orphanTx (n inputs scriptLength : ℕ) : CTransaction :=
  ⟨List.replicate inputs ⟨⟨1, 0⟩, [], 0, []⟩, [⟨1, List.replicate scriptLength 0⟩], 2, 0,
    BitVec.ofNat 256 n, BitVec.ofNat 256 n⟩

/-- Calls one after the other. -/
def runCalls (calls : List Call) (s : TxOrphanageImpl) : Option TxOrphanageImpl :=
  calls.foldlM (fun s call => call.run s) s

/-- No call has more peers than it can. -/
def fewPeers (limit : ℕ) : List Call → TxOrphanageImpl → Bool
  | [], _ => true
  | call :: calls, s => (call.unlimited s).peerOrphanageInfo.keys.length ≤ limit &&
      (call.run s).all (fewPeers limit calls)

lemma Reachable.runCalls {calls : List Call} {s' : TxOrphanageImpl}
  (reached : Reachable txs maxGlobalLatencyScore reservedPeerUsage s)
  (adds : ∀ call ∈ calls, call.Adds txs) (few : fewPeers maxGlobalLatencyScore calls s = true)
  (ran : TxOrphanage.runCalls calls s = some s') :
  Reachable txs maxGlobalLatencyScore reservedPeerUsage s' := by
  induction calls generalizing s with
  | nil =>
    cases ran
    exact reached
  | cons call calls ih =>
    obtain ⟨first, later⟩ := forall_mem_cons.mp adds
    obtain ⟨s₁, ran₁, ran⟩ := Option.bind_eq_some_iff.mp ran
    dsimp only at ran₁
    rw [fewPeers, ran₁, Bool.and_eq_true, decide_eq_true_eq] at few
    exact ih (reached.call call first few.1 ran₁) later few.2 ran

/-- Four peers: the first has one orphan, the second two, the others a larger one each. -/
def fourPeers : List Call :=
  [.addTx (orphanTx 1 1 0) 1, .addTx (orphanTx 2 1 0) 2, .addTx (orphanTx 3 1 0) 2,
    .addTx (orphanTx 4 1 90) 3, .addTx (orphanTx 5 1 90) 4]

/-- The first peer of four adds an orphan with forty inputs. -/
theorem orphanage_fair_fourPeers : let call := Call.addTx (orphanTx 6 40 0) 1
  ∃ s s', runCalls fourPeers (.new 6 500) = some s ∧ call.run s = some s' ∧ s'.SanityCheck ∧
    s'.orphans.length < (call.unlimited s).orphans.length ∧
    ReflTransGen (Evicts (call.unlimited s).maxPeerLatencyScore 500) (call.unlimited s) s' := by
  intro call
  let txs : Set CTransaction := {tx | tx ∈ [orphanTx 1 1 0, orphanTx 2 1 0, orphanTx 3 1 0,
    orphanTx 4 1 90, orphanTx 5 1 90, orphanTx 6 40 0]}
  have hashes : txs.InjOn CTransaction.witnessHash := by
    refine inj_on_of_nodup_map ?_
    decide +kernel
  obtain ⟨s, ran, few, s₁, run₁, fewer⟩ : ∃ s ∈ runCalls fourPeers (.new 6 500),
    (call.unlimited s).peerOrphanageInfo.keys.length ≤ 6 ∧ ∃ s' ∈ call.run s,
      s'.orphans.length < (call.unlimited s).orphans.length := by
    decide +kernel
  have reached : Reachable txs 6 500 s := Reachable.new.runCalls
    (by simp [fourPeers, Call.Adds, txs]) (by decide +kernel) ran
  obtain ⟨s', run, sane, evicted, -⟩ :=
    (orphanage_fair hashes (by decide) (by decide) reached).2 call (by simp [call, Call.Adds, txs]) few
  obtain rfl := Option.some.inj (run.symm.trans run₁)
  exact ⟨s, s', ran, run, sane, fewer, evicted⟩

/-- The first peer of four adds an orphan with forty inputs. When all it has is evicted, the share
of the second among the three that are left is what it uses, and it loses an orphan all the same. A
reserved usage of zero ends the program, and one that does not fit an `int32_t` makes the peer that
uses less the one to evict from. -/
theorem orphanage_unfair :
  (∃ s ∈ runCalls fourPeers (.new 6 500), ∃ final ∈ (Call.addTx (orphanTx 6 40 0) 1).run s,
    let start := (Call.addTx (orphanTx 6 40 0) 1).unlimited s
    let moment := trimPeer start.maxPeerLatencyScore 500 1 ⟨2, 1⟩ (start.byPeer 1) start
    (trimLoop start.maxPeerLatencyScore 500 5 [(2, ⟨2, 1⟩), (3, ⟨600, 500⟩), (4, ⟨600, 500⟩)]
      moment).map orphans = some final.orphans ∧
    moment.needsTrim = true ∧ moment.maxPeerLatencyScore = 2 ∧
    moment.peerOrphanageInfo.lookup 2 = some ⟨480, 2, 2⟩ ∧
    ⟨orphanTx 2 1 0, 2, 1, false⟩ ∈ moment.orphans ∧
    ⟨orphanTx 2 1 0, 2, 1, false⟩ ∉ final.orphans) ∧
  (Call.addTx (orphanTx 1 1 0) 1).run (.new 6 0) = none ∧
  (∃ s ∈ runCalls [.addTx (orphanTx 1 1 0) 1, .addTx (orphanTx 2 1 0) 1] (.new 2 (2 ^ 31)),
    ∃ final ∈ (Call.addTx (orphanTx 3 1 0) 2).run s,
    let start := (Call.addTx (orphanTx 3 1 0) 2).unlimited s
    start.maxPeerLatencyScore = 1 ∧ start.peerOrphanageInfo.lookup 2 = some ⟨240, 1, 1⟩ ∧
    ⟨orphanTx 3 1 0, 2, 2, false⟩ ∈ start.orphans ∧
    ⟨orphanTx 3 1 0, 2, 2, false⟩ ∉ final.orphans) := by
  refine ⟨?_, ?_, ?_⟩
  · decide +kernel
  · decide +kernel
  · decide +kernel

end TxOrphanage
