import Andaluzcoin.KeyedSum
import Andaluzcoin.TxOrphanage

/-!
# What the orphanage keeps account of

The numbers and indexes of the orphanage against the list of its announcements, for each of them
how it follows an announcement that comes or goes, and from that for every call.
-/

namespace TxOrphanage

open Transaction KeyedSum TxOrphanageImpl List AList Announcement

variable {s : TxOrphanageImpl} {l l' : List Announcement} {a : Announcement}

section
variable {peer : NodeId} {infos : PeerMap}

/-- What a peer uses. -/
def peerInfo (l : List Announcement) (peer : NodeId) : PeerDoSInfo :=
  ⟨groupSum announcer getMemUsage l peer,
    groupSum announcer (fun _ => 1) l peer,
    groupSum announcer getLatencyScore l peer⟩

def recomputed (l : List Announcement) (peer : NodeId) : Option PeerDoSInfo :=
  if (peerInfo l peer).countAnnouncements = 0 then none else some (peerInfo l peer)

def PeersKept (infos : PeerMap) (l : List Announcement) : Prop :=
  ∀ peer, infos.lookup peer = recomputed l peer

lemma peerInfo_perm (perm : l.Perm l') (peer : NodeId) : peerInfo l peer = peerInfo l' peer := by
  simp only [peerInfo, groupSum_perm _ _ perm peer]

lemma peerInfo_cons_self (a : Announcement) (l : List Announcement) :
  peerInfo (a :: l) a.announcer = (peerInfo l a.announcer).add a := by
  simp only [peerInfo, groupSum_cons, if_true, PeerDoSInfo.add, add_comm]

lemma peerInfo_cons_of_ne (ho : a.announcer ≠ peer) : peerInfo (a :: l) peer = peerInfo l peer := by
  simp only [peerInfo, groupSum_cons, if_neg ho, zero_add]

lemma countAnnouncements_eq (l : List Announcement) (peer : NodeId) :
  (peerInfo l peer).countAnnouncements = (l.filter fun ann => ann.announcer = peer).length := by
  simp [peerInfo, groupSum]

lemma countAnnouncements_eq_zero :
  (peerInfo l peer).countAnnouncements = 0 ↔ ∀ ann ∈ l, ann.announcer ≠ peer := by
  simp [countAnnouncements_eq, filter_eq_nil_iff]

lemma recomputed_getD (l : List Announcement) (peer : NodeId) :
  (recomputed l peer).getD .new = peerInfo l peer := by
  rw [recomputed]
  split_ifs with hn
  · have empty : (l.filter fun ann => ann.announcer = peer) = [] := by
      rwa [countAnnouncements_eq, length_eq_zero_iff] at hn
    simp [peerInfo, groupSum, empty, PeerDoSInfo.new]
  · rfl

lemma recomputed_isSome : (recomputed l peer).isSome ↔ ∃ ann ∈ l, ann.announcer = peer := by
  rw [recomputed]
  split_ifs with hn
  · simpa using countAnnouncements_eq_zero.mp hn
  · simpa [countAnnouncements_eq_zero] using hn

lemma eq_peerInfo_of_recomputed {info : PeerDoSInfo}
  (hf : recomputed l peer = some info) : info = peerInfo l peer := by
  rw [← recomputed_getD, hf, Option.getD_some]

lemma recomputed_cons_self (a : Announcement) (l : List Announcement) :
  recomputed (a :: l) a.announcer = some ((peerInfo l a.announcer).add a) := by
  rw [recomputed, peerInfo_cons_self]
  exact if_neg (Nat.succ_ne_zero _)

lemma recomputed_cons_of_ne (ho : a.announcer ≠ peer) :
  recomputed (a :: l) peer = recomputed l peer := by
  rw [recomputed, recomputed, peerInfo_cons_of_ne ho]

lemma PeersKept.perm (kept : PeersKept infos l) (perm : l.Perm l') :
  PeersKept infos l' := fun peer => by
  rw [kept peer, recomputed, recomputed, peerInfo_perm perm]

lemma PeersKept.cons (kept : PeersKept infos l) (a : Announcement) :
  PeersKept (infos.insert a.announcer (((infos.lookup a.announcer).getD .new).add a)) (a :: l) := by
  intro peer
  by_cases hs : peer = a.announcer
  · rw [hs, lookup_insert, kept, recomputed_getD, recomputed_cons_self]
  · rw [lookup_insert_ne hs, kept, recomputed_cons_of_ne (Ne.symm hs)]

lemma PeerDoSInfo.subtract_add (info : PeerDoSInfo) (a : Announcement) :
  (info.add a).subtract a = info := by
  simp [PeerDoSInfo.add, PeerDoSInfo.subtract]

lemma PeersKept.leave (kept : PeersKept infos (a :: l)) : PeersKept (leavePeer a infos) l := by
  have found : infos.lookup a.announcer = some ((peerInfo l a.announcer).add a) := by
    rw [kept, recomputed_cons_self]
  intro peer
  rw [leavePeer, found]
  dsimp only
  rw [PeerDoSInfo.subtract_add]
  by_cases hs : peer = a.announcer
  · subst hs
    rw [recomputed]
    split_ifs
    · exact lookup_erase _ _
    · exact lookup_insert _
  · have others : infos.lookup peer = recomputed l peer := by
      rw [kept, recomputed_cons_of_ne (Ne.symm hs)]
    split_ifs
    · rw [lookup_erase_ne hs, others]
    · rw [lookup_insert_ne hs, others]

end

section
variable {ops : OutpointMap}

/-- The outpoints that an announced transaction spends. -/
def Spends (a : Announcement) (outpoint : COutPoint) : Prop :=
  ∃ input ∈ a.tx.vin, input.prevout = outpoint

structure OutpointsKept (outpoints : OutpointMap) (l : List Announcement) : Prop where
  links : ∀ outpoint wtxid, wtxid ∈ (outpoints.lookup outpoint).getD [] ↔
    ∃ a ∈ l, a.wtxid = wtxid ∧ Spends a outpoint
  live : ∀ outpoint, outpoints.lookup outpoint ≠ some []

section
variable (wtxid : Wtxid)
include wtxid

lemma lookup_linkInput (ops : OutpointMap) (input : CTxIn) (outpoint : COutPoint) :
  (linkInput wtxid ops input).lookup outpoint = if outpoint = input.prevout then
    some (((ops.lookup outpoint).getD []).insert wtxid) else ops.lookup outpoint := by
  rw [linkInput]
  split_ifs with hs
  · rw [hs, lookup_insert]
  · rw [lookup_insert_ne hs]

lemma linkInputs_spec (vin : List CTxIn) (ops : OutpointMap)
  (live : ∀ outpoint, ops.lookup outpoint ≠ some []) :
  (∀ outpoint other, other ∈ ((vin.foldl (linkInput wtxid) ops).lookup outpoint).getD [] ↔
    other ∈ (ops.lookup outpoint).getD [] ∨
      other = wtxid ∧ ∃ input ∈ vin, input.prevout = outpoint) ∧
  ∀ outpoint, (vin.foldl (linkInput wtxid) ops).lookup outpoint ≠ some [] := by
  induction vin generalizing ops with
  | nil => exact ⟨by simp, live⟩
  | cons input vin ih =>
    obtain ⟨hl, live'⟩ := ih (linkInput wtxid ops input) fun outpoint => by
      rw [lookup_linkInput]
      split_ifs
      · exact fun empty => ne_nil_of_mem (mem_insert_self) (Option.some.inj empty)
      · exact live outpoint
    refine ⟨fun outpoint other => ?_, live'⟩
    rw [foldl_cons, hl, lookup_linkInput]
    split_ifs with hs
    · rw [Option.getD_some, mem_insert_iff]
      simp only [exists_mem_cons_iff, hs, true_or, and_true]
      tauto
    · simp only [exists_mem_cons_iff, Ne.symm hs, false_or]

lemma unlinkInput_spec (ops : OutpointMap) (input : CTxIn)
  (live : ∀ outpoint, ops.lookup outpoint ≠ some []) (outpoint : COutPoint) :
  (∀ other, other ∈ ((unlinkInput wtxid ops input).lookup outpoint).getD [] ↔
    other ∈ (ops.lookup outpoint).getD [] ∧ ¬ (other = wtxid ∧ input.prevout = outpoint)) ∧
  (unlinkInput wtxid ops input).lookup outpoint ≠ some [] := by
  rw [unlinkInput]
  cases found : ops.lookup input.prevout with
  | none =>
    dsimp only
    refine ⟨fun other => ?_, live outpoint⟩
    by_cases hs : input.prevout = outpoint
    · subst hs
      simp [found]
    · simp [hs]
  | some wtxids =>
    dsimp only
    by_cases hs : outpoint = input.prevout
    · subst hs
      split_ifs with none
      · rw [lookup_erase, found]
        refine ⟨fun other => ?_, by simp⟩
        have gone := eq_nil_iff_forall_not_mem.mp none other
        simpa using gone
      · rw [lookup_insert, found]
        exact ⟨fun other => by simp, fun empty => none (Option.some.inj empty)⟩
    have kept : ∀ other, ¬ (other = wtxid ∧ input.prevout = outpoint) :=
      fun other hb => hs hb.2.symm
    split_ifs
    · rw [lookup_erase_ne hs]
      exact ⟨fun other => (and_iff_left (kept other)).symm, live outpoint⟩
    · rw [lookup_insert_ne hs]
      exact ⟨fun other => (and_iff_left (kept other)).symm, live outpoint⟩

lemma unlinkInputs_spec (vin : List CTxIn) (ops : OutpointMap)
  (live : ∀ outpoint, ops.lookup outpoint ≠ some []) :
  (∀ outpoint other, other ∈ ((vin.foldl (unlinkInput wtxid) ops).lookup outpoint).getD [] ↔
    other ∈ (ops.lookup outpoint).getD [] ∧
      ¬ (other = wtxid ∧ ∃ input ∈ vin, input.prevout = outpoint)) ∧
  ∀ outpoint, (vin.foldl (unlinkInput wtxid) ops).lookup outpoint ≠ some [] := by
  induction vin generalizing ops with
  | nil => exact ⟨by simp, live⟩
  | cons input vin ih =>
    have first := unlinkInput_spec wtxid ops input live
    obtain ⟨hl, live'⟩ := ih (unlinkInput wtxid ops input) fun outpoint => (first outpoint).2
    refine ⟨fun outpoint other => ?_, live'⟩
    rw [foldl_cons, hl, (first outpoint).1, exists_mem_cons_iff, and_assoc, ← not_or, ← and_or_left]

end

lemma OutpointsKept.link (kept : OutpointsKept ops l) (a : Announcement) :
  OutpointsKept (a.tx.vin.foldl (linkInput a.wtxid) ops) (a :: l) := by
  obtain ⟨hl, live⟩ := linkInputs_spec a.wtxid a.tx.vin ops kept.live
  refine ⟨fun outpoint wtxid => ?_, live⟩
  rw [hl, kept.links, exists_mem_cons_iff, Spends, or_comm, eq_comm]

lemma OutpointsKept.unlink (kept : OutpointsKept ops (a :: l)) (last : ∀ b ∈ l, b.wtxid ≠ a.wtxid) :
  OutpointsKept (a.tx.vin.foldl (unlinkInput a.wtxid) ops) l := by
  obtain ⟨hl, live⟩ := unlinkInputs_spec a.wtxid a.tx.vin ops kept.live
  refine ⟨fun outpoint wtxid => ?_, live⟩
  rw [hl, kept.links, exists_mem_cons_iff]
  constructor
  · rintro ⟨⟨hash, spends⟩ | other, kept⟩
    · exact absurd ⟨hash.symm, spends⟩ kept
    · exact other
  · rintro ⟨b, hm, hash, spends⟩
    exact ⟨.inr ⟨b, hm, hash, spends⟩, fun gone => last b hm (hash.trans gone.1)⟩

end

/-- The transactions that are announced, each of them once. -/
def transactions (l : List Announcement) : Finset CTransaction :=
  (l.map fun ann => ann.tx).toFinset

lemma transactions_perm (perm : l.Perm l') : transactions l = transactions l' :=
  toFinset_eq_of_perm _ _ (perm.map _)

lemma transactions_cons (a : Announcement) (l : List Announcement) :
  transactions (a :: l) = insert a.tx (transactions l) := by
  rw [transactions, map_cons, toFinset_cons]
  rfl

lemma spent_iff {outpoint : COutPoint} {wtxid : Wtxid} :
  (∃ a ∈ l, a.wtxid = wtxid ∧ Spends a outpoint) ↔
    ∃ tx ∈ transactions l, tx.witnessHash = wtxid ∧ ∃ input ∈ tx.vin, input.prevout = outpoint := by
  simp [transactions, Announcement.wtxid, Spends]

lemma mem_transactions {tx : CTransaction} : tx ∈ transactions l ↔ ∃ a ∈ l, a.tx = tx := by
  simp [transactions]

lemma tx_notMem (ho : ∀ b ∈ l, b.wtxid ≠ a.wtxid) : a.tx ∉ transactions l := by
  intro hm
  obtain ⟨b, hm, tx⟩ := mem_transactions.mp hm
  exact ho b hm (congrArg CTransaction.witnessHash tx)

/-- The score of a transaction for its inputs alone. -/
def inputScore (tx : CTransaction) : ℕ := tx.vin.length / 10

lemma getLatencyScore_eq (a : Announcement) : a.getLatencyScore = inputScore a.tx + 1 :=
  add_comm _ _

structure UniqueKept (s : TxOrphanageImpl) (l : List Announcement) : Prop where
  count : s.uniqueOrphans = (transactions l).card
  usage : s.uniqueOrphanUsage = ∑ tx ∈ transactions l, (getTransactionWeight tx : ℤ)
  scores : s.uniqueRoundedInputScores = ∑ tx ∈ transactions l, inputScore tx
  outpoints : OutpointsKept s.outpointToOrphanWtxids l

lemma UniqueKept.congr (kept : UniqueKept s l) (same : transactions l = transactions l') :
  UniqueKept s l' :=
  ⟨same ▸ kept.count, same ▸ kept.usage, same ▸ kept.scores,
    fun _ _ => by rw [kept.outpoints.links, spent_iff, spent_iff, same], kept.outpoints.live⟩

lemma UniqueKept.cons (ha : ∃ b ∈ l, b.tx = a.tx) : UniqueKept s (a :: l) ↔ UniqueKept s l := by
  have same : transactions (a :: l) = transactions l := by
    rw [transactions_cons, Finset.insert_eq_of_mem (mem_transactions.mpr ha)]
  exact ⟨fun kept => kept.congr same, fun kept => kept.congr same.symm⟩

lemma UniqueKept.link (kept : UniqueKept s l) (first : ∀ b ∈ l, b.wtxid ≠ a.wtxid) :
  UniqueKept (s.link a) (a :: l) := by
  have absent := tx_notMem first
  refine ⟨?_, ?_, ?_, kept.outpoints.link a⟩
  · rw [transactions_cons, Finset.card_insert_of_notMem absent, ← kept.count]
    rfl
  · rw [transactions_cons, Finset.sum_insert absent, ← kept.usage, add_comm]
    rfl
  · rw [transactions_cons, Finset.sum_insert absent, ← kept.scores, add_comm]
    change _ + (a.getLatencyScore - 1) = _
    rw [getLatencyScore_eq, Nat.add_sub_cancel]

lemma UniqueKept.forget (kept : UniqueKept s (a :: l)) (last : ∀ b ∈ l, b.wtxid ≠ a.wtxid) :
  UniqueKept (s.forget a) l := by
  have absent := tx_notMem last
  obtain ⟨count, usage, scores, outpoints⟩ := kept
  rw [transactions_cons] at count usage scores
  rw [Finset.card_insert_of_notMem absent] at count
  rw [Finset.sum_insert absent] at usage scores
  refine ⟨?_, ?_, ?_, outpoints.unlink last⟩
  · change s.uniqueOrphans - 1 = _
    omega
  · change s.uniqueOrphanUsage - a.getMemUsage = _
    rw [usage, getMemUsage]
    ring
  · change s.uniqueRoundedInputScores - (a.getLatencyScore - 1) = _
    rw [getLatencyScore_eq]
    omega

section
variable {wtxids : Finset Wtxid}

structure ReconsiderKept (wtxids : Finset Wtxid) (l : List Announcement) : Prop where
  set : ∀ wtxid, wtxid ∈ wtxids ↔ ∃ a ∈ l, a.wtxid = wtxid ∧ a.reconsider = true
  once : ((l.filter fun ann => ann.reconsider).map fun ann => ann.wtxid).Nodup

section
variable (kept : ReconsiderKept wtxids l)
include kept

lemma ReconsiderKept.perm (perm : l.Perm l') : ReconsiderKept wtxids l' :=
  ⟨fun wtxid => by simp only [kept.set, perm.mem_iff],
    (((perm.filter _).map _).nodup_iff).mp kept.once⟩

lemma ReconsiderKept.cons (hw : a.reconsider = false) : ReconsiderKept wtxids (a :: l) :=
  ⟨fun wtxid => by simp [kept.set, hw], by simpa [hw] using kept.once⟩

/-- An announcement to be reconsidered may come where there is none of the transaction. -/
lemma ReconsiderKept.insert (hr : a.reconsider = true) (ha : a.wtxid ∉ wtxids) :
  ReconsiderKept (insert a.wtxid wtxids) (a :: l) := by
  refine ⟨fun wtxid => ?_, ?_⟩
  · rw [Finset.mem_insert, kept.set, exists_mem_cons_iff, eq_comm, and_iff_left hr]
  rw [filter_cons_of_pos hr, map_cons, nodup_cons]
  refine ⟨fun hm => ha ((kept.set _).mpr ?_), kept.once⟩
  obtain ⟨b, hm, hash⟩ := mem_map.mp hm
  exact ⟨b, (mem_filter.mp hm).1, hash, (mem_filter.mp hm).2⟩

end

lemma ReconsiderKept.erase (kept : ReconsiderKept wtxids (a :: l)) :
  ReconsiderKept (if a.reconsider then wtxids.erase a.wtxid else wtxids) l := by
  cases ready : a.reconsider with
  | false =>
    have once : ((l.filter fun ann => ann.reconsider).map fun ann => ann.wtxid).Nodup := by
      simpa [ready] using kept.once
    exact ⟨fun wtxid => by simp [kept.set, ready], once⟩
  | true =>
    have once := kept.once
    rw [filter_cons_of_pos ready, map_cons, nodup_cons] at once
    refine ⟨fun wtxid => ?_, once.2⟩
    rw [if_pos rfl, Finset.mem_erase, kept.set, exists_mem_cons_iff]
    constructor
    · rintro ⟨other, ⟨hs, -⟩ | hf⟩
      · exact absurd hs.symm other
      · exact hf
    · rintro ⟨b, hm, hash, hr'⟩
      refine ⟨fun hs => once.1 ?_, .inr ⟨b, hm, hash, hr'⟩⟩
      exact mem_map.mpr ⟨b, mem_filter.mpr ⟨hm, hr'⟩, hash.trans hs⟩

end

section
variable {peer : NodeId}

/-- The books of the orphanage are those of a list of announcements. -/
structure Books (s : TxOrphanageImpl) (l : List Announcement) : Prop where
  keys : (l.map fun ann => (ann.wtxid, ann.announcer)).Nodup
  sameTx : ∀ a ∈ l, ∀ b ∈ l, a.wtxid = b.wtxid → a.tx = b.tx
  peers : PeersKept s.peerOrphanageInfo l
  unique : UniqueKept s l
  reconsider : ReconsiderKept s.reconsiderableWtxids l

lemma Books.perm (hb : Books s l) (perm : l.Perm l') : Books s l' where
  keys := (perm.map _).nodup_iff.mp hb.keys
  sameTx a first b second := hb.sameTx a (perm.mem_iff.mpr first) b (perm.mem_iff.mpr second)
  peers := hb.peers.perm perm
  unique := hb.unique.congr (transactions_perm perm)
  reconsider := hb.reconsider.perm perm

/-- All that is kept account of agrees with the announcements. -/
def Consistent (s : TxOrphanageImpl) : Prop := Books s s.orphans

lemma isUnique_iff (perm : s.orphans.Perm (a :: l)) :
  s.isUnique a = true ↔ ∀ b ∈ l, b.wtxid ≠ a.wtxid := by
  have count := (perm.filter fun ann => ann.wtxid = a.wtxid).length_eq
  rw [filter_cons_of_pos (by simp), length_cons] at count
  rw [isUnique, decide_eq_true_iff, byWtxid, length_insertionSort, count, add_eq_right,
    length_eq_zero_iff, filter_eq_nil_iff]
  simp

lemma Consistent.erase (hcs : Consistent s) (hm : a ∈ s.orphans) : Consistent (s.erase a) := by
  have perm := perm_cons_erase hm
  have books := hcs.perm perm
  have keys := books.keys
  rw [map_cons, nodup_cons] at keys
  have unique : UniqueKept (s.erase a) (s.orphans.erase a) := by
    rw [TxOrphanageImpl.erase]
    by_cases last : s.isUnique a = true
    · have kept := books.unique.forget ((isUnique_iff perm).mp last)
      rw [if_pos last]
      exact { kept with }
    obtain ⟨b, other, hs⟩ : ∃ b ∈ s.orphans.erase a, b.wtxid = a.wtxid := by
      simpa [isUnique_iff perm] using last
    have again := books.sameTx b (.tail a other) a (.head _) hs
    have kept := (UniqueKept.cons ⟨b, other, again⟩).mp books.unique
    rw [if_neg last]
    exact { kept with }
  exact {
    keys := keys.2
    sameTx := fun b first c hse => books.sameTx b (.tail a first) c (.tail a hse)
    peers := books.peers.leave
    unique := unique
    reconsider := books.reconsider.erase }

lemma Consistent.nodup (hcs : Consistent s) : s.orphans.Nodup := Nodup.of_map _ hcs.keys

lemma foldl_erase_orphans (anns : List Announcement) (s : TxOrphanageImpl) :
  (anns.foldl erase s).orphans = s.orphans.diff anns := by
  induction anns generalizing s with
  | nil => rfl
  | cons ann anns ih =>
    rw [foldl_cons, ih, diff_cons]
    rfl

lemma Consistent.foldl_erase (hcs : Consistent s) {anns : List Announcement}
  (distinct : anns.Nodup) (hme : ∀ ann ∈ anns, ann ∈ s.orphans) :
  Consistent (anns.foldl TxOrphanageImpl.erase s) := by
  induction anns generalizing s with
  | nil => exact hcs
  | cons ann anns ih =>
    rw [nodup_cons] at distinct
    refine ih (hcs.erase (hme ann (.head _))) distinct.2 fun other hm => ?_
    have ne : other ≠ ann := fun hs => distinct.1 (hs ▸ hm)
    exact (mem_erase_of_ne ne).mpr (hme other (.tail ann hm))

lemma mem_byWtxid {wtxid : Wtxid} : a ∈ s.byWtxid wtxid ↔ a ∈ s.orphans ∧ a.wtxid = wtxid := by
  simp [byWtxid, mem_insertionSort]

lemma mem_byPeer : a ∈ s.byPeer peer ↔ a ∈ s.orphans ∧ a.announcer = peer := by
  simp [byPeer, mem_insertionSort]

variable (hcs : Consistent s)
include hcs

lemma Consistent.byWtxid_nodup (wtxid : Wtxid) : (s.byWtxid wtxid).Nodup :=
  (perm_insertionSort _ _).nodup_iff.mpr (hcs.nodup.filter _)

lemma Consistent.byPeer_nodup (peer : NodeId) : (s.byPeer peer).Nodup :=
  (perm_insertionSort _ _).nodup_iff.mpr (hcs.nodup.filter _)

lemma Consistent.eraseTxInternal (wtxid : Wtxid) : Consistent (s.eraseTxInternal wtxid) :=
  hcs.foldl_erase (hcs.byWtxid_nodup wtxid) fun _ hm => (mem_byWtxid.mp hm).1

lemma Consistent.eraseForPeerUnlimited (peer : NodeId) :
  Consistent (s.eraseForPeerUnlimited peer) :=
  hcs.foldl_erase (hcs.byPeer_nodup peer) fun _ hm => (mem_byPeer.mp hm).1

lemma Consistent.foldl_eraseTxInternal (wtxids : List Wtxid) :
  Consistent (wtxids.foldl TxOrphanageImpl.eraseTxInternal s) := by
  induction wtxids generalizing s with
  | nil => exact hcs
  | cons wtxid wtxids ih => exact ih (hcs.eraseTxInternal wtxid)

lemma Consistent.emplace {tx : CTransaction}
  {s' : TxOrphanageImpl} (added : s.emplace tx peer = some s')
  (hs : ∀ b ∈ s.orphans, b.wtxid = tx.witnessHash → b.tx = tx) :
  s'.orphans = s.next tx peer :: s.orphans ∧
    if s.haveTx tx.witnessHash then Consistent s' else Consistent (s'.link (s.next tx peer)) := by
  rw [TxOrphanageImpl.emplace] at added
  split at added
  · cases added
  case isFalse fresh =>
    cases added
    refine ⟨rfl, ?_⟩
    have keys : ((s.next tx peer :: s.orphans).map fun ann => (ann.wtxid, ann.announcer)).Nodup := by
      rw [map_cons, nodup_cons]
      refine ⟨fun hm => fresh ?_, hcs.keys⟩
      obtain ⟨b, hm, eq⟩ := mem_map.mp hm
      rw [any_eq_true]
      exact ⟨b, hm, decide_eq_true (Prod.mk.inj eq)⟩
    have sameTx : ∀ b ∈ s.next tx peer :: s.orphans, ∀ c ∈ s.next tx peer :: s.orphans,
      b.wtxid = c.wtxid → b.tx = c.tx := by
      refine forall_mem_cons.mpr ⟨forall_mem_cons.mpr ⟨fun _ => rfl, ?_⟩, ?_⟩
      · exact fun c hm hash => (hs c hm hash.symm).symm
      · exact fun b hm => forall_mem_cons.mpr ⟨hs b hm, hcs.sameTx b hm⟩
    have peers := hcs.peers.cons (s.next tx peer)
    have reconsider := hcs.reconsider.cons (a := s.next tx peer) rfl
    split_ifs with hk
    · obtain ⟨b, hm, hash⟩ : ∃ b ∈ s.orphans, b.wtxid = tx.witnessHash := by
        simpa [haveTx] using hk
      have unique := (UniqueKept.cons (a := s.next tx peer) ⟨b, hm, hs b hm hash⟩).mpr hcs.unique
      exact ⟨keys, sameTx, peers, { unique with }, reconsider⟩
    · have first : ∀ b ∈ s.orphans, b.wtxid ≠ tx.witnessHash := by simpa [haveTx] using hk
      have unique := hcs.unique.link (a := s.next tx peer) first
      exact ⟨keys, sameTx, peers, { unique with }, reconsider⟩

/-- Marking an announcement as one to be reconsidered where there is none, or unmarking it. -/
lemma Consistent.modify (hm : a ∈ s.orphans) {reconsider : Bool}
  (hc : if reconsider then a.wtxid ∉ s.reconsiderableWtxids else a.reconsider = true) :
  Consistent (s.modify a reconsider) := by
  have books := hcs.perm (perm_cons_erase hm)
  refine ⟨books.keys, ?_, fun peer => ?_, ?_, ?_⟩
  · have sameTx := books.sameTx
    simp only [forall_mem_cons] at sameTx
    exact forall_mem_cons.mpr ⟨forall_mem_cons.mpr ⟨fun _ => rfl, sameTx.1.2⟩,
      fun b other => forall_mem_cons.mpr (sameTx.2 b other)⟩
  · have same : peerInfo ({ a with reconsider } :: s.orphans.erase a) peer
      = peerInfo (a :: s.orphans.erase a) peer := by
      simp only [peerInfo, groupSum_cons]
      rfl
    change s.peerOrphanageInfo.lookup peer
      = recomputed ({ a with reconsider } :: s.orphans.erase a) peer
    rw [books.peers, recomputed, recomputed, same]
  · have unique : UniqueKept s ({ a with reconsider } :: s.orphans.erase a) :=
      books.unique.congr rfl
    exact { unique with }
  · have others := books.reconsider.erase
    cases reconsider with
    | true =>
      have waiting : a.reconsider = false := by
        by_contra ready
        exact hc ((hcs.reconsider.set _).mpr ⟨a, hm, rfl, by simpa using ready⟩)
      rw [waiting, if_neg (by simp)] at others
      exact others.insert (a := { a with reconsider := true }) rfl hc
    | false =>
      have ready : a.reconsider = true := hc
      rw [if_pos ready] at others
      exact others.cons (a := { a with reconsider := false }) rfl

end

/-- The calls that change the orphanage. -/
inductive Call where
  | addTx (tx : CTransaction) (peer : NodeId)
  | addAnnouncer (wtxid : Wtxid) (peer : NodeId)
  | getTxToReconsider (peer : NodeId)
  | eraseTx (wtxid : Wtxid)
  | eraseForPeer (peer : NodeId)
  | eraseForBlock (vtx : List CTransaction)
  | addChildrenToWorkSet (tx : CTransaction) (randrange : Wtxid → ℕ)

/-- The orphanage after a call. -/
def Call.run (s : TxOrphanageImpl) : Call → Option TxOrphanageImpl
  | addTx tx peer => (s.addTx tx peer).map Prod.snd
  | addAnnouncer wtxid peer => (s.addAnnouncer wtxid peer).map Prod.snd
  | getTxToReconsider peer => some (s.getTxToReconsider peer).2
  | eraseTx wtxid => (s.eraseTx wtxid).map Prod.snd
  | eraseForPeer peer => s.eraseForPeer peer
  | eraseForBlock vtx => s.eraseForBlock vtx
  | addChildrenToWorkSet tx randrange => some (s.addChildrenToWorkSet tx randrange).2

/-- The orphanage after what a call does itself, before it is limited. -/
def Call.unlimited (s : TxOrphanageImpl) : Call → TxOrphanageImpl
  | addTx tx peer => (s.addTxUnlimited tx peer).getD s
  | addAnnouncer wtxid peer => (s.addAnnouncerUnlimited wtxid peer).getD s
  | getTxToReconsider peer => (s.getTxToReconsider peer).2
  | eraseTx wtxid => s.eraseTxInternal wtxid
  | eraseForPeer peer => s.eraseForPeerUnlimited peer
  | eraseForBlock vtx => s.eraseForBlockUnlimited vtx
  | addChildrenToWorkSet tx randrange => (s.addChildrenToWorkSet tx randrange).2

/-- The transactions of the orphanage are from a set. -/
def Known (txs : Set CTransaction) (s : TxOrphanageImpl) : Prop := ∀ ann ∈ s.orphans, ann.tx ∈ txs

/-- The transaction that a call adds is from a set. -/
def Call.Adds (txs : Set CTransaction) : Call → Prop
  | addTx tx _ => tx ∈ txs
  | _ => True

/-- What the limits depend on. -/
structure SameSize (s s' : TxOrphanageImpl) : Prop where
  limits : s'.maxGlobalLatencyScore = s.maxGlobalLatencyScore ∧
    s'.reservedUsagePerPeer = s.reservedUsagePerPeer
  trim : s'.needsTrim = s.needsTrim

variable {txs : Set CTransaction}

lemma SameSize.refl (s : TxOrphanageImpl) : SameSize s s := ⟨⟨rfl, rfl⟩, rfl⟩

lemma modify_sameSize (hm : a ∈ s.orphans) (reconsider : Bool) :
  SameSize s (s.modify a reconsider) := by
  refine ⟨⟨rfl, rfl⟩, ?_⟩
  have length : (s.modify a reconsider).orphans.length = s.orphans.length := by
    rw [TxOrphanageImpl.modify, length_cons, length_erase_of_mem hm]
    have := length_pos_of_mem hm
    omega
  rw [needsTrim, totalLatencyScore, length]
  rfl

lemma Known.modify (hk : Known txs s) (hm : a ∈ s.orphans) (reconsider : Bool) :
  Known txs (s.modify a reconsider) :=
  forall_mem_cons.mpr ⟨hk a hm, fun ann other => hk ann (mem_of_mem_erase other)⟩

/-- What the calls for the work sets keep. -/
structure WorkKept (txs : Set CTransaction) (s s' : TxOrphanageImpl) : Prop where
  consistent : Consistent s'
  known : Known txs s'
  size : SameSize s s'

lemma WorkKept.modify {s' : TxOrphanageImpl} (kept : WorkKept txs s s') (hm : a ∈ s'.orphans)
  {reconsider : Bool}
  (hc : if reconsider then a.wtxid ∉ s'.reconsiderableWtxids else a.reconsider = true) :
  WorkKept txs s (s'.modify a reconsider) := by
  have size := modify_sameSize hm reconsider
  exact ⟨kept.consistent.modify hm hc, kept.known.modify hm reconsider,
    ⟨kept.size.limits, size.trim.trans kept.size.trim⟩⟩

lemma WorkKept.assignWork {r : List (Wtxid × NodeId) × TxOrphanageImpl} (kept : WorkKept txs s r.2)
  (randrange : Wtxid → ℕ) (wtxid : Wtxid) : WorkKept txs s (assignWork randrange r wtxid).2 := by
  rw [TxOrphanageImpl.assignWork]
  split
  · exact kept
  case isFalse ha =>
    dsimp only
    split
    · exact kept
    case h_2 it hf =>
      obtain ⟨hm, hash⟩ := mem_byWtxid.mp (mem_of_getElem? hf)
      exact kept.modify hm (by simpa [hash] using ha)

lemma WorkKept.addChildrenToWorkSet (kept : WorkKept txs s s) (tx : CTransaction)
  (randrange : Wtxid → ℕ) : WorkKept txs s (s.addChildrenToWorkSet tx randrange).2 := by
  rw [TxOrphanageImpl.addChildrenToWorkSet]
  have inner (wtxids : List Wtxid) (r : List (Wtxid × NodeId) × TxOrphanageImpl)
    (kept : WorkKept txs s r.2) :
    WorkKept txs s (wtxids.foldl (TxOrphanageImpl.assignWork randrange) r).2 := by
    induction wtxids generalizing r with
    | nil => exact kept
    | cons wtxid wtxids ih => exact ih _ (kept.assignWork randrange wtxid)
  generalize List.range tx.vout.length = outputs
  have start : WorkKept txs s (([], s) : List (Wtxid × NodeId) × TxOrphanageImpl).2 := kept
  generalize (([], s) : List (Wtxid × NodeId) × TxOrphanageImpl) = r at start
  induction outputs generalizing r with
  | nil => exact start
  | cons i outputs ih => exact ih _ (inner _ r start)

lemma WorkKept.getTxToReconsider (kept : WorkKept txs s s) (peer : NodeId) :
  WorkKept txs s (s.getTxToReconsider peer).2 := by
  rw [TxOrphanageImpl.getTxToReconsider]
  split
  · exact kept
  case h_2 it hf =>
    exact kept.modify (mem_byPeer.mp (mem_of_find?_eq_some hf)).1 (find?_some hf)

lemma foldl_erase_known (hk : Known txs s) (anns : List Announcement) :
  Known txs (anns.foldl erase s) := by
  intro ann hm
  rw [foldl_erase_orphans] at hm
  exact hk ann (diff_subset _ _ hm)

lemma foldl_eraseTxInternal_known (hk : Known txs s) (wtxids : List Wtxid) :
  Known txs (wtxids.foldl eraseTxInternal s) := by
  induction wtxids generalizing s with
  | nil => exact hk
  | cons wtxid wtxids ih => exact ih (foldl_erase_known hk _)

lemma Call.unlimited_consistent (hcs : Consistent s) (hk : Known txs s)
  (hashes : txs.InjOn CTransaction.witnessHash) (call : Call) (adds : call.Adds txs) :
  Consistent (call.unlimited s) ∧ Known txs (call.unlimited s) := by
  have kept : WorkKept txs s s := ⟨hcs, hk, .refl s⟩
  cases call with
  | addTx tx peer =>
    rw [Call.unlimited, addTxUnlimited]
    split
    · exact ⟨hcs, hk⟩
    cases added : s.emplace tx peer with
    | none => exact ⟨hcs, hk⟩
    | some s' =>
      obtain ⟨orphans, books⟩ := hcs.emplace added fun b member hash =>
        hashes (hk b member) adds hash
      have known' : Known txs s' := by
        rw [Known, orphans]
        exact forall_mem_cons.mpr ⟨adds, hk⟩
      rw [Option.map_some, Option.getD_some]
      split_ifs at books ⊢
      · exact ⟨books, known'⟩
      · exact ⟨books, known'⟩
  | addAnnouncer wtxid peer =>
    rw [Call.unlimited, addAnnouncerUnlimited]
    cases found : (s.byWtxid wtxid).head? with
    | none => exact ⟨hcs, hk⟩
    | some it =>
      rw [Option.bind_some]
      cases added : s.emplace it.tx peer with
      | none => exact ⟨hcs, hk⟩
      | some s' =>
        have member := (mem_byWtxid.mp (mem_of_head? found)).1
        obtain ⟨orphans, books⟩ := hcs.emplace added fun b other hash =>
          hcs.sameTx b other it member hash
        have have' : s.haveTx it.tx.witnessHash = true :=
          any_eq_true.mpr ⟨it, member, decide_eq_true rfl⟩
        rw [if_pos have'] at books
        refine ⟨books, ?_⟩
        rw [Option.getD_some, Known, orphans]
        exact forall_mem_cons.mpr ⟨hk it member, hk⟩
  | getTxToReconsider peer =>
    exact ⟨(kept.getTxToReconsider peer).consistent, (kept.getTxToReconsider peer).known⟩
  | eraseTx wtxid => exact ⟨hcs.eraseTxInternal wtxid, foldl_erase_known hk _⟩
  | eraseForPeer peer => exact ⟨hcs.eraseForPeerUnlimited peer, foldl_erase_known hk _⟩
  | eraseForBlock vtx =>
    exact ⟨hcs.foldl_eraseTxInternal _, foldl_eraseTxInternal_known hk _⟩
  | addChildrenToWorkSet tx randrange =>
    exact ⟨(kept.addChildrenToWorkSet tx randrange).consistent,
      (kept.addChildrenToWorkSet tx randrange).known⟩

end TxOrphanage
