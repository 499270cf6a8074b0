import Andaluzcoin.LinearizationDiagram

/-!
# The main graph of a `TxGraph`

The clusters of a main graph that is not oversized, once all of them are acceptable: what `Updated`
stores about their chunks, and the index of the chunks in the order of `CompareMainTransactions`.
-/

namespace TxGraph

open ClusterLinearize List Function

section

abbrev GraphIndex := ℕ

abbrev Ref := ℕ

structure GenericClusterImpl where
  sequence : ℕ
  depgraph : DepGraph
  mapping : ℕ → GraphIndex
  linearization : List ℕ

structure SingletonClusterImpl where
  sequence : ℕ
  feerate : FeeFrac
  graphIndex : GraphIndex

inductive Cluster where
  | generic (c : GenericClusterImpl)
  | singleton (c : SingletonClusterImpl)

def Cluster.sequence : Cluster → ℕ
  | .generic c => c.sequence
  | .singleton c => c.sequence

/-- The transactions of a cluster, in the order of its linearization. -/
def Cluster.txs : Cluster → List GraphIndex
  | .generic c => c.linearization.map c.mapping
  | .singleton c => [c.graphIndex]

structure ChunkData where
  graphIndex : GraphIndex
  /-- The special count -1, of a single transaction at the end of its cluster, is `none`. -/
  chunkCount : Option ℕ
  deriving DecidableEq

/-- What an entry holds about the main graph. -/
structure Entry where
  ref : Ref
  cluster : Option Cluster
  mainChunkFeerate : FeeFrac
  mainEqualFeerateChunkPrefixSize : ℤ
  mainLinIndex : ℕ
  mainMaxChunkFallback : GraphIndex

structure TxGraphImpl where
  fallbackOrder : Ref → Ref → Ordering
  entries : GraphIndex → Entry
  mainChunkindex : List ChunkData

/-- `CompareClusters`. -/
def compareClusters : Option Cluster → Option Cluster → Ordering
  | some a, some b => compare a.sequence b.sequence
  | a, b => compare a.isSome b.isSome

namespace TxGraphImpl

variable (g : TxGraphImpl)

/-- The fallback order of two entries. -/
def refOrder (a b : GraphIndex) : Ordering := g.fallbackOrder (g.entries a).ref (g.entries b).ref

def compareMainTransactions (a b : GraphIndex) : Ordering :=
  if a = b then .eq
  else
    let entryA := g.entries a
    let entryB := g.entries b
    match entryB.mainChunkFeerate.feeRateCompare entryA.mainChunkFeerate with
    | .lt => .lt
    | .gt => .gt
    | .eq =>
      if entryA.mainEqualFeerateChunkPrefixSize ≠ entryB.mainEqualFeerateChunkPrefixSize then
        compare entryA.mainEqualFeerateChunkPrefixSize entryB.mainEqualFeerateChunkPrefixSize
      else if entryA.cluster.map Cluster.sequence ≠ entryB.cluster.map Cluster.sequence then
        match g.refOrder entryA.mainMaxChunkFallback entryB.mainMaxChunkFallback with
        | .eq => compareClusters entryA.cluster entryB.cluster
        | fallback => fallback
      else compare entryA.mainLinIndex entryB.mainLinIndex

/-- `ChunkOrder`. -/
def chunkOrder (a b : ChunkData) : Bool :=
  g.compareMainTransactions a.graphIndex b.graphIndex == .lt

/-- The place of a new element in an ordered set; one that is already in stays. -/
def insertChunk (data : ChunkData) : List ChunkData → List ChunkData
  | [] => [data]
  | first :: rest =>
    if g.chunkOrder first data then first :: insertChunk data rest
    else if g.chunkOrder data first then data :: first :: rest
    else first :: rest

def createChunkData (idx : GraphIndex) (chunkCount : Option ℕ) : TxGraphImpl :=
  { g with mainChunkindex := g.insertChunk ⟨idx, chunkCount⟩ g.mainChunkindex }

def clearChunkData (idx : GraphIndex) : TxGraphImpl :=
  { g with mainChunkindex := g.mainChunkindex.filter fun data => data.graphIndex ≠ idx }

def setPresent (idx : GraphIndex) (c : Cluster) : TxGraphImpl :=
  { g with entries := update g.entries idx { g.entries idx with cluster := some c } }

end TxGraphImpl

/-- The `while` loop of `Updated`: the transactions of a chunk in the linearization, and the rest. -/
def takeChunk (transactions : Finset ℕ) : List ℕ → List ℕ × List ℕ
  | [] => ([], [])
  | idx :: rest =>
    if transactions.erase idx = ∅ then ([idx], rest)
    else
      let (here, later) := takeChunk (transactions.erase idx) rest
      (idx :: here, later)

/-- `equal_feerate_chunk_feerate` after a chunk: the sum of the chunks of its feerate so far. -/
def nextEqual (equal feerate : FeeFrac) : FeeFrac :=
  if feerate.lowerFeeRate equal then feerate else equal + feerate

/-- What `Updated` stores about one chunk. -/
structure ChunkUpdate where
  txs : List GraphIndex
  linIndex : ℕ
  feerate : FeeFrac
  prefixSize : ℤ
  maxElement : GraphIndex
  chunkCount : Option ℕ

namespace GenericClusterImpl

variable (order : GraphIndex → GraphIndex → Ordering) (c : GenericClusterImpl)

/-- The greatest transaction of a chunk in the fallback order. -/
def maxElement (transactions : Finset ℕ) : GraphIndex :=
  match ascending transactions with
  | [] => 0
  | first :: rest =>
    rest.foldl (fun best i => if order (c.mapping i) best = .gt then c.mapping i else best)
      (c.mapping first)

/-- The loop of `Updated` over the chunks that are left, from a place in the linearization. -/
def chunkUpdates : List SetInfo → List ℕ → ℕ → FeeFrac → List ChunkUpdate
  | [], _, _, _ => []
  | chunk :: later, lin, linIdx, equalFeerateChunkFeerate =>
    let equal := nextEqual equalFeerateChunkFeerate chunk.feerate
    let (here, rest) := takeChunk chunk.transactions lin
    let chunkCount := chunk.transactions.card
    ⟨here.map c.mapping, linIdx, chunk.feerate, equal.size, c.maxElement order chunk.transactions,
      if chunkCount = 1 ∧ later = [] then none else some chunkCount⟩ ::
      chunkUpdates later rest (linIdx + here.length) equal

end GenericClusterImpl

/-- What `Updated` stores about the chunks of a cluster. -/
def Cluster.chunkUpdates (order : GraphIndex → GraphIndex → Ordering) : Cluster → List ChunkUpdate
  | .generic c =>
    c.chunkUpdates order (chunkLinearizationInfo c.depgraph c.linearization) c.linearization 0
      FeeFrac.empty
  | .singleton c => [⟨[c.graphIndex], 0, c.feerate, c.feerate.size, c.graphIndex, none⟩]

namespace TxGraphImpl

/-- What is stored about a transaction, at its place in the linearization. -/
def storeTx (u : ChunkUpdate) (g : TxGraphImpl) (p : GraphIndex × ℕ) : TxGraphImpl :=
  { g with
    entries := update g.entries p.1 { g.entries p.1 with
      mainLinIndex := p.2
      mainChunkFeerate := u.feerate
      mainEqualFeerateChunkPrefixSize := u.prefixSize
      mainMaxChunkFallback := u.maxElement } }

def storeChunk (g : TxGraphImpl) (u : ChunkUpdate) : TxGraphImpl :=
  let g := (u.txs.zipIdx u.linIndex).foldl (storeTx u) g
  match u.txs.getLast? with
  | none => g
  | some last => g.createChunkData last u.chunkCount

/-- `Updated` of a cluster of the main graph whose quality is acceptable. -/
def updated (g : TxGraphImpl) (c : Cluster) : TxGraphImpl :=
  let g := c.txs.foldl (fun g idx => (g.clearChunkData idx).setPresent idx c) g
  (c.chunkUpdates g.refOrder).foldl storeChunk g

end TxGraphImpl

/-- A cluster whose linearization is topological and has all its transactions. -/
def Cluster.Acceptable : Cluster → Prop
  | .generic c => c.depgraph.Positive ∧ c.linearization.Perm (ascending c.depgraph.positions) ∧
      IsTopological c.depgraph c.linearization
  | .singleton c => 0 < c.feerate.size

/-- The clusters of a main graph that is not oversized, with all pending changes applied and every
cluster made acceptable. -/
structure MainGraph where
  fallbackOrder : Ref → Ref → Ordering
  refs : GraphIndex → Ref
  clusters : List Cluster
  strong : Std.TransCmp fallbackOrder
  lawful : Std.LawfulEqCmp fallbackOrder
  acceptable : ∀ c ∈ clusters, c.Acceptable
  sequences : (clusters.map Cluster.sequence).Nodup
  distinct : ((clusters.flatMap Cluster.txs).map refs).Nodup

namespace MainGraph

variable (graph : MainGraph)

/-- Every cluster has been updated since its last change. -/
def load : TxGraphImpl :=
  graph.clusters.foldl TxGraphImpl.updated
    ⟨graph.fallbackOrder, fun idx => ⟨graph.refs idx, none, FeeFrac.empty, 0, 0, 0⟩, []⟩

def order (a b : GraphIndex) : Ordering := graph.fallbackOrder (graph.refs a) (graph.refs b)

/-- An ancestor of a transaction, in the dependencies of its cluster. -/
def Ancestor (a b : GraphIndex) : Prop :=
  ∃ c ∈ graph.clusters, match c with
    | .generic c => ∃ i ∈ c.depgraph.positions, ∃ j ∈ c.depgraph.ancestors i,
        a = c.mapping j ∧ b = c.mapping i
    | .singleton c => a = c.graphIndex ∧ b = c.graphIndex

end MainGraph

end

section
variable {order : GraphIndex → GraphIndex → Ordering} {u v : ChunkUpdate} {equal : FeeFrac}
  {segments : List (List ℕ)} {updates : List ChunkUpdate} {s : List ℕ} {start : ℕ}

/-- A chunk comes before another one of its cluster: its feerate is higher, or equal with less in
front of it. -/
def ChunkUpdate.Ahead (u v : ChunkUpdate) : Prop :=
  v.feerate.rate < u.feerate.rate ∨
    v.feerate.rate = u.feerate.rate ∧ u.prefixSize < v.prefixSize

/-- Chunks one after the other, from a place in a linearization to its end. -/
def Laid (start : ℕ) : List ChunkUpdate → Prop
  | [] => True
  | u :: later => u.txs ≠ [] ∧ u.linIndex = start ∧ u.maxElement ∈ u.txs ∧ 0 < u.feerate.size ∧
      u.chunkCount = (if u.txs.length = 1 ∧ later = [] then none else some u.txs.length) ∧
      (∀ v ∈ later, u.Ahead v) ∧ Laid (start + u.txs.length) later

lemma takeChunk_append (nonempty : s ≠ []) (nodup : s.Nodup) (rest : List ℕ) :
  takeChunk s.toFinset (s ++ rest) = (s, rest) := by
  induction s with
  | nil => exact absurd rfl nonempty
  | cons i s ih =>
    obtain ⟨hl, nodup⟩ := nodup_cons.mp nodup
    have left : (i :: s).toFinset.erase i = s.toFinset := by
      rw [toFinset_cons, Finset.erase_insert (by simpa using hl)]
    rw [cons_append, takeChunk, left]
    by_cases last : s = []
    · simp [last]
    · rw [if_neg (by simpa using last), ih last nodup]

variable (order) in
lemma maxElement_mem (c : GenericClusterImpl) {transactions : Finset ℕ}
  (nonempty : transactions.Nonempty) :
  ∃ i ∈ transactions, c.maxElement order transactions = c.mapping i := by
  rw [GenericClusterImpl.maxElement]
  have listed : ∀ i ∈ ascending transactions, i ∈ transactions := fun i => mem_ascending.mp
  split
  · next none =>
    obtain ⟨i, hm⟩ := nonempty
    have := mem_ascending.mpr hm
    rw [none] at this
    cases this
  · next first rest eq =>
    rw [eq] at listed
    obtain ⟨memberF, memberR⟩ := forall_mem_cons.mp listed
    refine foldlRecOn (motive := fun best => ∃ i ∈ transactions, best = c.mapping i) rest _
      ⟨first, memberF, rfl⟩ fun best hb i hm => ?_
    split_ifs
    · exact ⟨i, memberR i hm, rfl⟩
    · exact hb

lemma rate_add {a b : FeeFrac} (posA : 0 < a.size) (posB : 0 < b.size) (hs : a.rate = b.rate) :
  (a + b).rate = a.rate := by
  have sizeA : (0 : ℚ) < a.size := by exact_mod_cast posA
  have sizeB : (0 : ℚ) < b.size := by exact_mod_cast posB
  rw [FeeFrac.rate, FeeFrac.rate, div_eq_div_iff sizeA.ne' sizeB.ne'] at hs
  rw [FeeFrac.rate, FeeFrac.rate, FeeFrac.add_fee, FeeFrac.add_size]
  push_cast
  rw [div_eq_div_iff (by positivity) sizeA.ne']
  linarith

/-- The running sum has the feerate of its last chunk, and grows as long as that does not change. -/
lemma nextEqual_spec {feerate : FeeFrac} (pos : 0 < feerate.size)
  (hc : equal = FeeFrac.empty ∨ 0 < equal.size ∧ feerate.rate ≤ equal.rate) :
  (nextEqual equal feerate).rate = feerate.rate ∧ 0 < (nextEqual equal feerate).size ∧
    (0 < equal.size → feerate.rate < equal.rate ∨
      feerate.rate = equal.rate ∧ equal.size < (nextEqual equal feerate).size) := by
  rw [nextEqual]
  rcases hc with rfl | ⟨posE, le⟩
  · have first : FeeFrac.empty + feerate = feerate := FeeFrac.ext' (zero_add _) (zero_add _)
    rw [first, ite_self]
    exact ⟨rfl, pos, fun none => absurd none (lt_irrefl 0)⟩
  split_ifs with lower
  · exact ⟨rfl, pos, fun _ => .inl ((FeeFrac.lowerFeeRate_iff pos posE).mp lower)⟩
  rw [FeeFrac.lowerFeeRate_iff pos posE, not_lt] at lower
  have same := le_antisymm le lower
  rw [rate_add posE pos same.symm, FeeFrac.add_size]
  exact ⟨same.symm, by omega, fun _ => .inr ⟨same, by omega⟩⟩

lemma infoOf_size_pos {G : DepGraph} (hc : Chunked G segments) (hm : s ∈ segments) :
  0 < (infoOf G s).feerate.size := by
  rw [← FeeFrac.step_run_pos, infoOf_step]
  exact StepDiagram.whole_run_pos (hc.pos s hm) (hc.nonempty s hm)

variable (order) in
lemma chunkUpdates_spec (c : GenericClusterImpl)
  (nodup : segments.flatten.Nodup) (hc : Chunked c.depgraph segments) (linIdx : ℕ)
  (hco : equal = FeeFrac.empty ∨
    0 < equal.size ∧ ∀ s ∈ segments, (infoOf c.depgraph s).feerate.rate ≤ equal.rate) :
  let updates := c.chunkUpdates order (segments.map (infoOf c.depgraph)) segments.flatten linIdx
    equal
  updates.flatMap ChunkUpdate.txs = segments.flatten.map c.mapping ∧ Laid linIdx updates ∧
    (0 < equal.size → ∀ u ∈ updates, u.feerate.rate < equal.rate ∨
      u.feerate.rate = equal.rate ∧ equal.size < u.prefixSize) := by
  induction segments generalizing linIdx equal with
  | nil => simp [GenericClusterImpl.chunkUpdates, Laid]
  | cons s segments ih =>
    have nonempty := hc.nonempty s (.head _)
    have pos := infoOf_size_pos hc (.head _)
    rw [flatten_cons, nodup_append] at nodup
    obtain ⟨nodupS, nodupR, -⟩ := nodup
    obtain ⟨rate, posN, grows⟩ := nextEqual_spec pos (hco.imp_right fun h => ⟨h.1, h.2 s (.head _)⟩)
    have falls : ∀ t ∈ segments, (infoOf c.depgraph t).feerate.rate ≤
      (nextEqual equal (infoOf c.depgraph s).feerate).rate := by
      intro t hm
      rw [rate, infoOf_rate, infoOf_rate]
      exact hc.head_steepest t hm
    obtain ⟨flat, laid, hl⟩ := ih nodupR hc.tail (linIdx + s.length) (.inr ⟨posN, falls⟩)
    have card : (infoOf c.depgraph s).transactions.card = s.length := toFinset_card_of_nodup nodupS
    have taken : takeChunk (infoOf c.depgraph s).transactions (s ++ segments.flatten) =
      (s, segments.flatten) := takeChunk_append nonempty nodupS _
    have updates : c.chunkUpdates order ((s :: segments).map (infoOf c.depgraph))
      (s :: segments).flatten linIdx equal =
      ⟨s.map c.mapping, linIdx, (infoOf c.depgraph s).feerate,
        (nextEqual equal (infoOf c.depgraph s).feerate).size,
        c.maxElement order (infoOf c.depgraph s).transactions,
        if s.length = 1 ∧ segments = [] then none else some s.length⟩ ::
      c.chunkUpdates order (segments.map (infoOf c.depgraph)) segments.flatten
        (linIdx + s.length) (nextEqual equal (infoOf c.depgraph s).feerate) := by
      simp only [map_cons, flatten_cons, GenericClusterImpl.chunkUpdates, taken, card,
        map_eq_nil_iff]
    intro all
    rw [show all = _ from updates]
    refine ⟨?_, ⟨?_, rfl, ?_, pos, ?_, ?_, ?_⟩, fun posE => ?_⟩
    · rw [flatMap_cons, flat, flatten_cons, map_append]
    · simpa using nonempty
    · obtain ⟨i, hm, eq⟩ := maxElement_mem order c (toFinset_nonempty_iff s |>.mpr nonempty)
      change c.maxElement order s.toFinset ∈ s.map c.mapping
      rw [eq]
      exact mem_map_of_mem (mem_toFinset.mp hm)
    · have ends : c.chunkUpdates order (segments.map (infoOf c.depgraph)) segments.flatten
        (linIdx + s.length) (nextEqual equal (infoOf c.depgraph s).feerate) = [] ↔
        segments = [] := by
        cases segments <;> simp [GenericClusterImpl.chunkUpdates]
      simp only [ends, length_map]
    · intro v hm
      have ahead := hl posN v hm
      rwa [rate] at ahead
    · rwa [length_map]
    · refine forall_mem_cons.mpr ⟨grows posE, fun u hm => ?_⟩
      have ahead := hl posN u hm
      rw [rate] at ahead
      rcases grows posE with lower | ⟨hs, more⟩
      · exact .inl (ahead.elim (fun h => h.trans lower) fun h => h.1.trans_lt lower)
      · exact ahead.imp (fun h => h.trans_eq hs) fun h => ⟨h.1.trans hs, more.trans h.2⟩

lemma Cluster.Acceptable.laid {c : Cluster} (acceptable : c.Acceptable) :
  (c.chunkUpdates order).flatMap ChunkUpdate.txs = c.txs ∧ Laid 0 (c.chunkUpdates order) := by
  cases c with
  | generic c =>
    obtain ⟨hp, perm, -⟩ := acceptable
    have pos : ∀ i ∈ c.linearization, 0 < size c.depgraph i := by
      intro i hm
      have positiveI := hp i (mem_ascending.mp (perm.mem_iff.mp hm))
      rw [size]
      exact_mod_cast positiveI
    obtain ⟨segments, eq, flat, hc⟩ := chunkLinearizationInfo_spec c.depgraph c.linearization pos
    have nodup := flat ▸ perm.nodup_iff.mpr (nodup_ascending _)
    obtain ⟨txs, laid, -⟩ := chunkUpdates_spec order c nodup hc 0 (.inl rfl)
    rw [flat, ← eq] at txs laid
    exact ⟨txs, laid⟩
  | singleton c =>
    simp only [Cluster.chunkUpdates, Laid, Cluster.txs]
    exact ⟨rfl, by simp, trivial, by simp, acceptable, by simp, by simp, trivial⟩

section
variable (laid : Laid start updates)
include laid

lemma Laid.split (hm : u ∈ updates) : ∃ front back, updates = front ++ u :: back ∧
  Laid (start + (front.flatMap ChunkUpdate.txs).length) (u :: back) := by
  induction updates generalizing start with
  | nil => cases hm
  | cons v hl ih =>
    rcases mem_cons.mp hm with rfl | hm
    · exact ⟨[], hl, rfl, laid⟩
    · obtain ⟨-, -, -, -, -, -, laid⟩ := laid
      obtain ⟨front, back, rfl, rest⟩ := ih laid hm
      refine ⟨v :: front, back, rfl, ?_⟩
      rwa [flatMap_cons, length_append, ← add_assoc]

lemma Laid.bounds (hm : u ∈ updates) : start ≤ u.linIndex ∧
    u.linIndex + u.txs.length ≤ start + (updates.flatMap ChunkUpdate.txs).length ∧
    ((updates.flatMap ChunkUpdate.txs).drop (u.linIndex - start)).take u.txs.length = u.txs := by
  obtain ⟨front, back, rfl, -, hh, -⟩ := laid.split hm
  rw [hh, flatMap_append, flatMap_cons, length_append, length_append]
  refine ⟨by omega, by omega, ?_⟩
  rw [Nat.add_sub_cancel_left, drop_left, take_left]

/-- The count of a chunk; it is special for one transaction that is the last of its cluster. -/
lemma Laid.chunkCount (hm : u ∈ updates) :
  u.chunkCount = some u.txs.length ∨ u.chunkCount = none ∧ u.txs.length = 1 ∧
    u.linIndex + 1 = start + (updates.flatMap ChunkUpdate.txs).length := by
  obtain ⟨front, back, rfl, -, hh, -, -, count, -⟩ := laid.split hm
  split_ifs at count with special
  · obtain ⟨single, rfl⟩ := special
    exact .inr ⟨count, single, by simp [hh, single, add_assoc]⟩
  · exact .inl count

lemma Laid.pairwise :
  updates.Pairwise fun u v => u.Ahead v ∧ u.linIndex + u.txs.length ≤ v.linIndex := by
  induction updates generalizing start with
  | nil => exact List.Pairwise.nil
  | cons u hl ih =>
    obtain ⟨-, hh, -, -, -, ahead, laid⟩ := laid
    refine pairwise_cons.mpr ⟨fun v hm => ⟨ahead v hm, ?_⟩, ih laid⟩
    rw [hh]
    exact (laid.bounds hm).1

lemma Laid.comparable (hmu : u ∈ updates) (hmv : v ∈ updates) :
  u = v ∨ (u.Ahead v ∧ u.linIndex + u.txs.length ≤ v.linIndex) ∨
    (v.Ahead u ∧ v.linIndex + v.txs.length ≤ u.linIndex) := by
  let R := fun u v : ChunkUpdate => u = v ∨ (u.Ahead v ∧ u.linIndex + u.txs.length ≤ v.linIndex) ∨
      (v.Ahead u ∧ v.linIndex + v.txs.length ≤ u.linIndex)
  have symm : Std.Symm R := ⟨fun x y h => h.elim (fun hs => .inl hs.symm) fun h => .inr h.symm⟩
  have related : updates.Pairwise R := laid.pairwise.imp fun h => .inr (.inl h)
  exact Pairwise.forall_of_forall (fun x _ => .inl rfl) related hmu hmv

/-- Two chunks of a cluster are told apart by their feerate and what is in front of them. -/
lemma Laid.eq_of_same (hmu : u ∈ updates) (hmv : v ∈ updates)
  (rate : u.feerate.rate = v.feerate.rate) (hp : u.prefixSize = v.prefixSize) : u = v := by
  rcases laid.comparable hmu hmv with hs | ⟨ahead, -⟩ | ⟨ahead, -⟩
  · exact hs
  all_goals simp [ChunkUpdate.Ahead, rate, hp] at ahead

end

/-- The element of the index that stands for a chunk. -/
def ChunkUpdate.chunkEnd (u : ChunkUpdate) : ChunkData := ⟨u.txs.getLastD 0, u.chunkCount⟩

lemma Laid.mem (laid : Laid start updates) (hm : u ∈ updates) :
  u.txs ≠ [] ∧ u.maxElement ∈ u.txs ∧ 0 < u.feerate.size := by
  obtain ⟨-, -, -, nonempty, -, greatest, pos, -⟩ := laid.split hm
  exact ⟨nonempty, greatest, pos⟩

lemma Laid.getElem? (laid : Laid start updates)
  (hm : u ∈ updates) {i k : ℕ} (stored : (i, k) ∈ u.txs.zipIdx u.linIndex) :
  start ≤ k ∧ (updates.flatMap ChunkUpdate.txs)[k - start]? = some i := by
  obtain ⟨front, back, rfl, -, at_, -⟩ := laid.split hm
  obtain ⟨from_, eq⟩ := mk_mem_zipIdx_iff_le_and_getElem?_sub.mp stored
  have inside : k - u.linIndex < u.txs.length := (List.getElem?_eq_some_iff.mp eq).1
  rw [at_] at from_ inside eq
  refine ⟨by omega, ?_⟩
  rw [flatMap_append, flatMap_cons, getElem?_append_right (by omega), Nat.sub_sub,
    getElem?_append_left inside, eq]

end

section
variable {g g' g'' : TxGraphImpl} {c : Cluster} {u : ChunkUpdate}

/-- The entries outside of some transactions are untouched, and no reference changes. -/
structure Frame (txs : List GraphIndex) (g g' : TxGraphImpl) : Prop where
  fallbackOrder : g'.fallbackOrder = g.fallbackOrder
  ref : ∀ i, (g'.entries i).ref = (g.entries i).ref
  entries : ∀ i, i ∉ txs → g'.entries i = g.entries i

lemma Frame.refl (txs : List GraphIndex) (g : TxGraphImpl) : Frame txs g g :=
  ⟨rfl, fun _ => rfl, fun _ _ => rfl⟩

lemma Frame.trans {txs txs' : List GraphIndex} (first : Frame txs g g') (hs : Frame txs' g' g'') :
  Frame (txs ++ txs') g g'' where
  fallbackOrder := hs.fallbackOrder.trans first.fallbackOrder
  ref i := (hs.ref i).trans (first.ref i)
  entries i outside := by
    rw [mem_append, not_or] at outside
    rw [hs.entries i outside.2, first.entries i outside.1]

lemma frame_of_update {idx : GraphIndex} {e : Entry} (hf : g'.fallbackOrder = g.fallbackOrder)
  (updated : g'.entries = update g.entries idx e) (ref : e.ref = (g.entries idx).ref) :
  Frame [idx] g g' where
  fallbackOrder := hf
  ref i := by
    by_cases hs : i = idx
    · rw [updated, hs, update_self, ref]
    · rw [updated, update_of_ne hs]
  entries i outside := by rw [updated, update_of_ne (by simpa using outside)]

lemma storeTxs_spec (u : ChunkUpdate) (g : TxGraphImpl) {places : List (GraphIndex × ℕ)}
  (nodup : (places.map Prod.fst).Nodup) : let g' := places.foldl (TxGraphImpl.storeTx u) g
  Frame (places.map Prod.fst) g g' ∧ g'.mainChunkindex = g.mainChunkindex ∧
    ∀ p ∈ places, g'.entries p.1 =
      ⟨(g.entries p.1).ref, (g.entries p.1).cluster, u.feerate, u.prefixSize, p.2,
        u.maxElement⟩ := by
  induction places generalizing g with
  | nil => exact ⟨Frame.refl _ g, rfl, by simp⟩
  | cons p hl ih =>
    obtain ⟨hla, nodup⟩ := nodup_cons.mp nodup
    obtain ⟨frame, index, stored⟩ := ih (g.storeTx u p) nodup
    have first : Frame [p.1] g (g.storeTx u p) := frame_of_update rfl rfl rfl
    refine ⟨first.trans frame, index, forall_mem_cons.mpr ⟨?_, fun q hm => ?_⟩⟩
    · rw [foldl_cons, frame.entries p.1 hla]
      exact update_self ..
    · have ne : q.1 ≠ p.1 := fun hs => hla (hs ▸ mem_map_of_mem hm)
      rw [foldl_cons, stored q hm, first.entries q.1 (by simpa using ne)]

/-- The transactions of a cluster are marked as present, and its old chunks leave the index. -/
lemma setPresent_spec (g : TxGraphImpl) (c : Cluster) (txs : List GraphIndex) :
  let g' := txs.foldl (fun g idx => (g.clearChunkData idx).setPresent idx c) g
  Frame txs g g' ∧
    g'.mainChunkindex = g.mainChunkindex.filter (fun data => data.graphIndex ∉ txs) ∧
    ∀ i ∈ txs, (g'.entries i).cluster = some c := by
  induction txs generalizing g with
  | nil => exact ⟨Frame.refl _ g, by simp, by simp⟩
  | cons idx hl ih =>
    obtain ⟨frame, index, hp⟩ := ih ((g.clearChunkData idx).setPresent idx c)
    have first : Frame [idx] g ((g.clearChunkData idx).setPresent idx c) := frame_of_update rfl rfl rfl
    refine ⟨first.trans frame, ?_, ?_⟩
    · rw [foldl_cons, index]
      simp only [TxGraphImpl.setPresent, TxGraphImpl.clearChunkData, filter_filter,
        mem_cons, not_or]
      congr 1
      funext data
      simp [Bool.and_comm]
    intro i hm
    by_cases later_ : i ∈ hl
    · exact hp i later_
    · obtain rfl : i = idx := by simpa [later_] using hm
      rw [foldl_cons, frame.entries i later_]
      simp [TxGraphImpl.setPresent]

end

section
variable {g : TxGraphImpl} {order : GraphIndex → GraphIndex → Ordering}

/-- The order of two stored entries: by falling feerate of their chunks, then by what is in front of
these, then by their greatest transactions, and within a chunk by place. -/
def compareEntries (order : GraphIndex → GraphIndex → Ordering) : Entry → Entry → Ordering :=
  compareLex (fun a b => compare b.mainChunkFeerate.rate a.mainChunkFeerate.rate)
    (compareLex (compareOn Entry.mainEqualFeerateChunkPrefixSize)
      (compareLex (fun a b => order a.mainMaxChunkFallback b.mainMaxChunkFallback)
        (compareOn Entry.mainLinIndex)))

lemma transCmp_comap {α β : Type*} {cmp : β → β → Ordering} (trans : Std.TransCmp cmp) (f : α → β) :
  Std.TransCmp fun a b => cmp (f a) (f b) where
  eq_swap := Std.OrientedCmp.eq_swap
  isLE_trans := Std.TransCmp.isLE_trans

lemma compareEntries_trans (trans : Std.TransCmp order) : Std.TransCmp (compareEntries order) := by
  have rates := transCmp_comap (Std.TransCmp.opposite : Std.TransCmp fun a b : ℚ => compare b a)
      fun e : Entry => e.mainChunkFeerate.rate
  have greatest := transCmp_comap trans Entry.mainMaxChunkFallback
  rw [compareEntries]
  infer_instance

lemma feeRateCompare_eq {a b : FeeFrac} (posA : 0 < a.size) (posB : 0 < b.size) :
  a.feeRateCompare b = compare a.rate b.rate := by
  cases eq : a.feeRateCompare b with
  | lt =>
    rw [FeeFrac.feeRateCompare_eq_lt posA posB] at eq
    exact (compare_lt_iff_lt.mpr eq).symm
  | gt =>
    rw [FeeFrac.feeRateCompare_eq_gt posA posB] at eq
    exact (compare_gt_iff_gt.mpr eq).symm
  | eq =>
    rw [FeeFrac.feeRateCompare_eq_eq posA posB] at eq
    exact (compare_eq_iff_eq.mpr eq).symm

/-- A new element of an ordered set finds its place. -/
lemma insertChunk_spec {data : ChunkData} {index : List ChunkData}
  (hs : index.Pairwise fun a b => g.chunkOrder a b = true)
  (ha : ∀ x ∈ index, g.chunkOrder x data = true ∨ g.chunkOrder data x = true)
  (trans : ∀ x ∈ index, ∀ y ∈ index, g.chunkOrder data x = true → g.chunkOrder x y = true →
    g.chunkOrder data y = true) : (g.insertChunk data index).Perm (data :: index) ∧
    (g.insertChunk data index).Pairwise fun a b => g.chunkOrder a b = true := by
  induction index with
  | nil => exact ⟨List.Perm.refl _, pairwise_singleton _ _⟩
  | cons first rest ih =>
    obtain ⟨least, sortedRest⟩ := pairwise_cons.mp hs
    obtain ⟨perm, insorted⟩ := ih sortedRest (fun x hm => ha x (.tail _ hm))
      fun x hmx y hmy => trans x (.tail _ hmx) y (.tail _ hmy)
    rw [TxGraphImpl.insertChunk]
    split_ifs with after before
    · refine ⟨(perm.cons first).trans (List.Perm.swap _ _ _), ?_⟩
      refine pairwise_cons.mpr ⟨fun x hm => ?_, insorted⟩
      rcases mem_cons.mp (perm.mem_iff.mp hm) with rfl | hm
      · exact after
      · exact least x hm
    · refine ⟨List.Perm.refl _, pairwise_cons.mpr ⟨fun x hm => ?_, hs⟩⟩
      rcases mem_cons.mp hm with rfl | hr
      · exact before
      · exact trans first (.head _) x hm before (least x hr)
    · rcases ha first (.head _) with h | h
      · exact absurd h after
      · exact absurd h before

lemma compareEntries_eq_eq {a b : Entry} :
  compareEntries order a b = .eq ↔ a.mainChunkFeerate.rate = b.mainChunkFeerate.rate ∧
    a.mainEqualFeerateChunkPrefixSize = b.mainEqualFeerateChunkPrefixSize ∧
    order a.mainMaxChunkFallback b.mainMaxChunkFallback = .eq ∧ a.mainLinIndex = b.mainLinIndex := by
  simp only [compareEntries, compareLex, compareOn, Ordering.then_eq_eq, compare_eq_iff_eq,
    eq_comm (a := b.mainChunkFeerate.rate)]

end

namespace MainGraph

variable {G : MainGraph} {g : TxGraphImpl} {c c' : Cluster} {u u' : ChunkUpdate} {a b i k k' : ℕ}

/-- All transactions of the graph. -/
def txs (graph : MainGraph) : List GraphIndex := graph.clusters.flatMap Cluster.txs

lemma txs_nodup (G : MainGraph) : G.txs.Nodup := G.distinct.of_map

lemma cluster_nodup (hm : c ∈ G.clusters) : c.txs.Nodup := (nodup_flatMap.mp G.txs_nodup).1 c hm

lemma mem_txs (hm : c ∈ G.clusters) (hi : i ∈ c.txs) : i ∈ G.txs := mem_flatMap.mpr ⟨c, hm, hi⟩

lemma order_trans (G : MainGraph) : Std.TransCmp G.order := transCmp_comap G.strong G.refs

lemma order_self (G : MainGraph) (i : GraphIndex) : G.order i i = .eq := G.lawful.compare_self

lemma eq_of_order (hma : a ∈ G.txs) (hmb : b ∈ G.txs) (hs : G.order a b = .eq) : a = b :=
  inj_on_of_nodup_map G.distinct hma hmb (G.lawful.eq_of_compare hs)

lemma cluster_eq_of_sequence (hm : c ∈ G.clusters) (hm' : c' ∈ G.clusters)
  (hs : c.sequence = c'.sequence) : c = c' :=
  inj_on_of_nodup_map G.sequences hm hm' hs

lemma cluster_eq_of_mem (hm : c ∈ G.clusters) (hm' : c' ∈ G.clusters)
  (hi : i ∈ c.txs) (hi' : i ∈ c'.txs) : c = c' := by
  by_contra ne
  have disjoint := (nodup_flatMap.mp G.txs_nodup).2
  have symm : Std.Symm (Function.onFun List.Disjoint Cluster.txs) := ⟨fun _ _ h => h.symm⟩
  exact disjoint.forall hm hm' ne hi hi'

/-- Where a transaction is: its cluster, its chunk, and its place in the linearization. -/
structure Placed (graph : MainGraph) (i : GraphIndex) (c : Cluster) (u : ChunkUpdate) (k : ℕ) :
  Prop where
  cluster : c ∈ graph.clusters
  chunk : u ∈ c.chunkUpdates graph.order
  place : (i, k) ∈ u.txs.zipIdx u.linIndex

/-- The entry of a transaction after all updates. -/
def stored (graph : MainGraph) (i : GraphIndex) (c : Cluster) (u : ChunkUpdate) (k : ℕ) : Entry :=
  ⟨graph.refs i, some c, u.feerate, u.prefixSize, k, u.maxElement⟩

lemma laid (hm : c ∈ G.clusters) :
  (c.chunkUpdates G.order).flatMap ChunkUpdate.txs = c.txs ∧ Laid 0 (c.chunkUpdates G.order) :=
  (G.acceptable c hm).laid

lemma mem_of_chunk (hm : c ∈ G.clusters) (hc : u ∈ c.chunkUpdates G.order)
  (hi : i ∈ u.txs) : i ∈ c.txs := by
  rw [← (laid hm).1]
  exact mem_flatMap.mpr ⟨u, hc, hi⟩

section
variable (placed : G.Placed i c u k)
include placed

lemma Placed.mem_chunk : i ∈ u.txs := fst_mem_of_mem_zipIdx placed.place

lemma Placed.mem : i ∈ c.txs := mem_of_chunk placed.cluster placed.chunk placed.mem_chunk

lemma Placed.getElem? : c.txs[k]? = some i := by
  obtain ⟨flat, laid⟩ := laid placed.cluster
  rw [← flat]
  exact (laid.getElem? placed.chunk placed.place).2

lemma Placed.bounds : u.linIndex ≤ k ∧ k < u.linIndex + u.txs.length := by
  obtain ⟨from_, eq⟩ := mk_mem_zipIdx_iff_le_and_getElem?_sub.mp placed.place
  have inside := (List.getElem?_eq_some_iff.mp eq).1
  omega

lemma Placed.unique (hp' : G.Placed i c' u' k') : c = c' ∧ u = u' ∧ k = k' := by
  obtain rfl := cluster_eq_of_mem placed.cluster hp'.cluster placed.mem hp'.mem
  have inside := (List.getElem?_eq_some_iff.mp placed.getElem?).1
  obtain rfl := (getElem?_inj inside (cluster_nodup placed.cluster)).mp (placed.getElem?.trans hp'.getElem?.symm)
  obtain ⟨low, hh⟩ := placed.bounds
  obtain ⟨low', hh'⟩ := hp'.bounds
  rcases (laid placed.cluster).2.comparable placed.chunk hp'.chunk with hs | ⟨-, le⟩ | ⟨-, le⟩
  · exact ⟨rfl, hs, rfl⟩
  · omega
  · omega

end

lemma exists_place (hcl : c ∈ G.clusters) (hc : u ∈ c.chunkUpdates G.order)
  (hi : i ∈ u.txs) : ∃ k, G.Placed i c u k := by
  obtain ⟨n, hb, eq⟩ := getElem_of_mem hi
  refine ⟨u.linIndex + n, hcl, hc, ?_⟩
  rw [mk_mem_zipIdx_iff_le_and_getElem?_sub]
  simp [hb, eq]

lemma exists_placed (hm : i ∈ G.txs) : ∃ c u k, G.Placed i c u k := by
  obtain ⟨c, cluster, hi⟩ := mem_flatMap.mp hm
  rw [← (laid cluster).1] at hi
  obtain ⟨u, chunk, hi⟩ := mem_flatMap.mp hi
  obtain ⟨k, placed⟩ := exists_place cluster chunk hi
  exact ⟨c, u, k, placed⟩

lemma exists_placed_of_getElem? (hc : c ∈ G.clusters) (hf : c.txs[k]? = some i) :
  ∃ u, G.Placed i c u k := by
  have inside : i ∈ c.txs := mem_of_getElem? hf
  obtain ⟨c', u, k', placed⟩ := exists_placed (mem_txs hc inside)
  obtain rfl := cluster_eq_of_mem hc placed.cluster inside placed.mem
  have bound := (List.getElem?_eq_some_iff.mp hf).1
  obtain rfl := (getElem?_inj bound (cluster_nodup hc)).mp (hf.trans placed.getElem?.symm)
  exact ⟨u, placed⟩

lemma Ancestor.placed (han : G.Ancestor a b) : ∃ c u k u' k',
  G.Placed a c u k ∧ G.Placed b c u' k' ∧ k ≤ k' ∧ (a ≠ b → k < k') := by
  obtain ⟨c, cluster, hr⟩ := han
  have acceptable := G.acceptable c cluster
  cases c with
  | generic c =>
    obtain ⟨i, used, j, ha, rfl, rfl⟩ := hr
    obtain ⟨-, perm, ht⟩ := acceptable
    obtain ⟨front, back, split⟩ := append_of_mem (perm.mem_iff.mpr (mem_ascending.mpr used))
    have atI : (Cluster.generic c).txs[front.length]? = some (c.mapping i) := by
      simp [Cluster.txs, split]
    obtain ⟨u', hp'⟩ := exists_placed_of_getElem? cluster atI
    by_cases hs : j = i
    · rw [hs]
      exact ⟨_, u', _, u', _, hp', hp', le_rfl, fun ne => absurd rfl ne⟩
    have earlier := ht front i back split j ha hs
    obtain ⟨n, hb, eq⟩ := getElem_of_mem earlier
    have atJ : (Cluster.generic c).txs[n]? = some (c.mapping j) := by
      rw [Cluster.txs, getElem?_map, split, getElem?_append_left hb, getElem?_eq_getElem hb, eq]
      rfl
    obtain ⟨u, placed⟩ := exists_placed_of_getElem? cluster atJ
    exact ⟨_, u, n, u', _, placed, hp', hb.le, fun _ => hb⟩
  | singleton c =>
    obtain ⟨rfl, rfl⟩ := hr
    obtain ⟨u, placed⟩ := exists_placed_of_getElem? (k := 0) (i := c.graphIndex) cluster rfl
    exact ⟨_, u, 0, u, 0, placed, placed, le_rfl, fun ne => absurd rfl ne⟩

/-- Equal feerate, equal room in front and equal greatest transaction: the same chunk. -/
lemma Placed.same_chunk (placed : G.Placed a c u k) (hp' : G.Placed b c' u' k')
  (rate : u.feerate.rate = u'.feerate.rate) (hp : u.prefixSize = u'.prefixSize)
  (greatest : G.order u.maxElement u'.maxElement = .eq) : c = c' ∧ u = u' := by
  obtain ⟨-, hh, -⟩ := (laid placed.cluster).2.mem placed.chunk
  obtain ⟨-, hh', -⟩ := (laid hp'.cluster).2.mem hp'.chunk
  have inside := mem_of_chunk placed.cluster placed.chunk hh
  have inside' := mem_of_chunk hp'.cluster hp'.chunk hh'
  have same := eq_of_order (mem_txs placed.cluster inside) (mem_txs hp'.cluster inside') greatest
  obtain rfl := cluster_eq_of_mem placed.cluster hp'.cluster inside (same ▸ inside')
  exact ⟨rfl, (laid placed.cluster).2.eq_of_same placed.chunk hp'.chunk rate hp⟩

lemma Placed.eq_of_compare (placed : G.Placed a c u k) (hp' : G.Placed b c' u' k')
  (hs : compareEntries G.order (G.stored a c u k) (G.stored b c' u' k') = .eq) : a = b := by
  obtain ⟨rate, prefixes, greatest, place⟩ := compareEntries_eq_eq.mp hs
  obtain ⟨rfl, rfl⟩ := placed.same_chunk hp' rate prefixes greatest
  have place : k = k' := place
  rw [← place] at hp'
  exact Option.some.inj (placed.getElem?.symm.trans hp'.getElem?)

/-- `CompareMainTransactions` of two entries that have their final contents. -/
lemma Placed.compare_eq (refOrder : g.refOrder = G.order) (placed : G.Placed a c u k)
  (hp' : G.Placed b c' u' k') (hea : g.entries a = G.stored a c u k)
  (heb : g.entries b = G.stored b c' u' k') : g.compareMainTransactions a b =
    compareEntries G.order (G.stored a c u k) (G.stored b c' u' k') := by
  have trans := compareEntries_trans G.order_trans
  obtain ⟨-, -, pos⟩ := (laid placed.cluster).2.mem placed.chunk
  obtain ⟨-, -, pos'⟩ := (laid hp'.cluster).2.mem hp'.chunk
  rw [TxGraphImpl.compareMainTransactions]
  split_ifs with hs
  · rw [← hea, ← heb, hs]
    exact Std.ReflCmp.compare_self.symm
  simp only [hea, heb, refOrder, stored, Option.map_some, ne_eq, Option.some.injEq,
    compareEntries, compareLex, compareOn]
  rw [feeRateCompare_eq pos' pos]
  cases rates : compare u'.feerate.rate u.feerate.rate with
  | lt => rfl
  | gt => rfl
  | eq =>
    have rate := (compare_eq_iff_eq.mp rates).symm
    rw [Ordering.eq_then]
    by_cases prefixes : u.prefixSize = u'.prefixSize
    · rw [if_neg (not_not.mpr prefixes), prefixes, compare_eq_iff_eq.mpr rfl, Ordering.eq_then]
      by_cases clusters : c.sequence = c'.sequence
      · obtain rfl := cluster_eq_of_sequence placed.cluster hp'.cluster clusters
        obtain rfl := (laid placed.cluster).2.eq_of_same placed.chunk hp'.chunk rate prefixes
        rw [if_neg (not_not.mpr rfl), G.order_self, Ordering.eq_then]
      rw [if_pos clusters]
      cases greatest : G.order u.maxElement u'.maxElement with
      | lt => rfl
      | gt => rfl
      | eq =>
        obtain ⟨rfl, -⟩ := placed.same_chunk hp' rate prefixes greatest
        exact absurd rfl clusters
    · rw [if_pos prefixes]
      cases order : compare u.prefixSize u'.prefixSize with
      | lt => rfl
      | gt => rfl
      | eq => exact absurd (compare_eq_iff_eq.mp order) prefixes

/-- The entries of the transactions of some chunks have their final contents. -/
structure Stored (graph : MainGraph) (done : List (Cluster × ChunkUpdate)) (g : TxGraphImpl) :
  Prop where
  fallbackOrder : g.fallbackOrder = graph.fallbackOrder
  ref : ∀ i, (g.entries i).ref = graph.refs i
  known : ∀ p ∈ done, p.1 ∈ graph.clusters ∧ p.2 ∈ p.1.chunkUpdates graph.order
  entries : ∀ p ∈ done, ∀ i k, (i, k) ∈ p.2.txs.zipIdx p.2.linIndex →
    g.entries i = graph.stored i p.1 p.2 k

/-- These chunks, and no others, are in the index, in order. -/
structure Settled (graph : MainGraph) (done : List (Cluster × ChunkUpdate)) (g : TxGraphImpl) : Prop
  extends Stored graph done g where
  index : g.mainChunkindex.Perm (done.map fun p => p.2.chunkEnd)
  sorted : g.mainChunkindex.Pairwise fun a b => g.chunkOrder a b = true

/-- The final entry of the last transaction of a chunk. -/
def endEntry (graph : MainGraph) (p : Cluster × ChunkUpdate) : Entry :=
  graph.stored p.2.chunkEnd.graphIndex p.1 p.2 (p.2.linIndex + (p.2.txs.length - 1))

variable {done : List (Cluster × ChunkUpdate)} {p q : Cluster × ChunkUpdate}

section
variable (hh : G.Stored done g)
include hh

lemma Stored.refOrder : g.refOrder = G.order := by
  funext a b
  rw [TxGraphImpl.refOrder, hh.fallbackOrder, hh.ref, hh.ref]
  rfl

lemma Stored.placed (hm : p ∈ done)
  (place : (i, k) ∈ p.2.txs.zipIdx p.2.linIndex) : G.Placed i p.1 p.2 k :=
  ⟨(hh.known p hm).1, (hh.known p hm).2, place⟩

lemma Stored.compare_eq (hmp : p ∈ done) (hmq : q ∈ done)
  (hpa : (a, k) ∈ p.2.txs.zipIdx p.2.linIndex) (hpb : (b, k') ∈ q.2.txs.zipIdx q.2.linIndex) :
  g.compareMainTransactions a b =
    compareEntries G.order (G.stored a p.1 p.2 k) (G.stored b q.1 q.2 k') :=
  (hh.placed hmp hpa).compare_eq hh.refOrder (hh.placed hmq hpb)
    (hh.entries p hmp a k hpa) (hh.entries q hmq b k' hpb)

lemma Stored.chunkEnd_place (hm : p ∈ done) :
  (p.2.chunkEnd.graphIndex, p.2.linIndex + (p.2.txs.length - 1)) ∈
    p.2.txs.zipIdx p.2.linIndex := by
  obtain ⟨cluster, chunk⟩ := hh.known p hm
  have nonempty := ((laid cluster).2.mem chunk).1
  have pos := length_pos_iff.mpr nonempty
  rw [mk_mem_zipIdx_iff_le_and_getElem?_sub, ChunkUpdate.chunkEnd, getLastD_eq_getLast?,
    getLast?_eq_getElem?]
  simp [getElem?_eq_getElem (Nat.sub_lt pos Nat.one_pos)]

lemma Stored.chunkOrder_iff (hmp : p ∈ done) (hmq : q ∈ done) :
  g.chunkOrder p.2.chunkEnd q.2.chunkEnd = true ↔
    compareEntries G.order (G.endEntry p) (G.endEntry q) = .lt := by
  rw [TxGraphImpl.chunkOrder, hh.compare_eq hmp hmq (hh.chunkEnd_place hmp)
    (hh.chunkEnd_place hmq), beq_iff_eq]
  rfl

lemma Stored.chunkEnd_eq (hmp : p ∈ done) (hmq : q ∈ done)
  (hs : compareEntries G.order (G.endEntry p) (G.endEntry q) = .eq) :
  p.2.chunkEnd.graphIndex = q.2.chunkEnd.graphIndex :=
  (hh.placed hmp (hh.chunkEnd_place hmp)).eq_of_compare (hh.placed hmq (hh.chunkEnd_place hmq)) hs

lemma Stored.add (hcl : c ∈ G.clusters) (hc : u ∈ c.chunkUpdates G.order)
  (fresh : ∀ p ∈ done, ∀ i ∈ u.txs, i ∉ p.2.txs) {g' : TxGraphImpl} (frame : Frame u.txs g g')
  (stored : ∀ i k, (i, k) ∈ u.txs.zipIdx u.linIndex → g'.entries i = G.stored i c u k) :
  G.Stored (done ++ [(c, u)]) g' where
  fallbackOrder := frame.fallbackOrder.trans hh.fallbackOrder
  ref i := (frame.ref i).trans (hh.ref i)
  known p hm := by
    rcases mem_append.mp hm with hm | hm
    · exact hh.known p hm
    · obtain rfl := mem_singleton.mp hm
      exact ⟨hcl, hc⟩
  entries p hm i k place := by
    rcases mem_append.mp hm with hm | hm
    · have outside : i ∉ u.txs := fun hi =>
        fresh p hm i hi (fst_mem_of_mem_zipIdx place)
      rw [frame.entries i outside]
      exact hh.entries p hm i k place
    · obtain rfl := mem_singleton.mp hm
      exact stored i k place

end

section
variable (settled : G.Settled done g)
include settled

lemma Settled.ends {x : ChunkData} (hm : x ∈ g.mainChunkindex) : ∃ p ∈ done, p.2.chunkEnd = x :=
  mem_map.mp (settled.index.mem_iff.mp hm)

/-- The elements of the index compare as before. -/
lemma Settled.sorted_of {done' : List (Cluster × ChunkUpdate)} {g' : TxGraphImpl}
  (hh : G.Stored done' g') (sub : ∀ p ∈ done, p ∈ done') :
  g.mainChunkindex.Pairwise fun a b => g'.chunkOrder a b = true := by
  refine settled.sorted.imp_of_mem fun hmx hmy before => ?_
  obtain ⟨p, hmp, rfl⟩ := settled.ends hmx
  obtain ⟨q, hmq, rfl⟩ := settled.ends hmy
  rw [hh.chunkOrder_iff (sub p hmp) (sub q hmq)]
  exact (settled.chunkOrder_iff hmp hmq).mp before

/-- The chunk goes to its place in the index. -/
lemma Settled.add (fresh : ∀ p ∈ done, ∀ i ∈ u.txs, i ∉ p.2.txs) {g' : TxGraphImpl}
  (hh : G.Stored (done ++ [(c, u)]) g') (hi : g'.mainChunkindex = g.mainChunkindex) :
  G.Settled (done ++ [(c, u)])
    (g'.createChunkData u.chunkEnd.graphIndex u.chunkEnd.chunkCount) := by
  have trans := compareEntries_trans G.order_trans
  have old : ∀ p ∈ done, p ∈ done ++ [(c, u)] := fun p hm => mem_append_left _ hm
  have new : (c, u) ∈ done ++ [(c, u)] := by simp
  obtain ⟨perm, sorted⟩ : (g'.insertChunk u.chunkEnd g.mainChunkindex).Perm
    (u.chunkEnd :: g.mainChunkindex) ∧ (g'.insertChunk u.chunkEnd g.mainChunkindex).Pairwise
      fun a b => g'.chunkOrder a b = true := by
    refine insertChunk_spec (settled.sorted_of hh old) ?_ ?_
    · intro x hm
      obtain ⟨p, hmp, rfl⟩ := settled.ends hm
      rw [hh.chunkOrder_iff (old p hmp) new, hh.chunkOrder_iff new (old p hmp)]
      cases order : compareEntries G.order (G.endEntry p) (G.endEntry (c, u)) with
      | lt => exact .inl rfl
      | gt => exact .inr (Std.OrientedCmp.lt_of_gt order)
      | eq =>
        have same := hh.chunkEnd_eq (old p hmp) new order
        have inP := fst_mem_of_mem_zipIdx (hh.chunkEnd_place (old p hmp))
        have inU := fst_mem_of_mem_zipIdx (hh.chunkEnd_place new)
        exact absurd (same ▸ inP) (fresh p hmp _ inU)
    · intro x hmx y hmy first hs
      obtain ⟨p, hmp, rfl⟩ := settled.ends hmx
      obtain ⟨q, hmq, rfl⟩ := settled.ends hmy
      have before := (hh.chunkOrder_iff new (old p hmp)).mp first
      have after := (hh.chunkOrder_iff (old p hmp) (old q hmq)).mp hs
      exact (hh.chunkOrder_iff new (old q hmq)).mpr (Std.TransCmp.lt_trans before after)
  rw [← hi] at perm sorted
  refine ⟨{ hh with }, ?_, sorted⟩
  rw [map_append, map_singleton]
  refine perm.trans ?_
  rw [hi]
  exact (settled.index.cons _).trans (perm_append_singleton _ _).symm

lemma Settled.storeChunk (hcl : c ∈ G.clusters) (hc : u ∈ c.chunkUpdates G.order)
  (nodup : u.txs.Nodup) (fresh : ∀ p ∈ done, ∀ i ∈ u.txs, i ∉ p.2.txs)
  (hp : ∀ i ∈ u.txs, (g.entries i).cluster = some c) :
  G.Settled (done ++ [(c, u)]) (g.storeChunk u) ∧ Frame u.txs g (g.storeChunk u) := by
  have keys : (u.txs.zipIdx u.linIndex).map Prod.fst = u.txs := zipIdx_map_fst _ _
  obtain ⟨frame, index, entries⟩ := storeTxs_spec u g (keys.symm ▸ nodup)
  rw [keys] at frame
  have holds := settled.toStored.add hcl hc fresh frame fun i k place => by
    rw [entries (i, k) place, settled.ref, hp i (fst_mem_of_mem_zipIdx place)]
    rfl
  have nonempty := ((laid hcl).2.mem hc).1
  have create : g.storeChunk u = ((u.txs.zipIdx u.linIndex).foldl (TxGraphImpl.storeTx u)
    g).createChunkData u.chunkEnd.graphIndex u.chunkEnd.chunkCount := by
    simp only [TxGraphImpl.storeChunk, ChunkUpdate.chunkEnd, getLastD_eq_getLast?,
      getLast?_eq_some_getLast nonempty, Option.getD_some]
  rw [create]
  exact ⟨settled.add fresh holds index, ⟨frame.fallbackOrder, frame.ref, frame.entries⟩⟩

lemma Settled.storeChunks (hc : c ∈ G.clusters)
  {updates : List ChunkUpdate} (chunks : ∀ u ∈ updates, u ∈ c.chunkUpdates G.order)
  (nodup : (updates.flatMap ChunkUpdate.txs).Nodup)
  (fresh : ∀ p ∈ done, ∀ i ∈ updates.flatMap ChunkUpdate.txs, i ∉ p.2.txs)
  (hp : ∀ i ∈ updates.flatMap ChunkUpdate.txs, (g.entries i).cluster = some c) :
  G.Settled (done ++ updates.map fun u => (c, u)) (updates.foldl TxGraphImpl.storeChunk g) := by
  induction updates generalizing g done with
  | nil => simpa using settled
  | cons u hl ih =>
    rw [flatMap_cons] at nodup fresh hp
    obtain ⟨nodupU, nodupL, ha⟩ := nodup_append.mp nodup
    obtain ⟨chunk, chunks⟩ := forall_mem_cons.mp chunks
    obtain ⟨next, frame⟩ := settled.storeChunk hc chunk nodupU
      (fun p hm i hi => fresh p hm i (mem_append_left _ hi))
      fun i hi => hp i (mem_append_left _ hi)
    have rest := ih next chunks nodupL ?_ ?_
    · rw [append_assoc] at rest
      exact rest
    · intro p hm i hi
      rcases mem_append.mp hm with hm | hm
      · exact fresh p hm i (mem_append_right _ hi)
      · obtain rfl := mem_singleton.mp hm
        exact fun hb => ha i hb i hi rfl
    · intro i hi
      rw [frame.entries i fun hb => ha i hb i hi rfl]
      exact hp i (mem_append_right _ hi)

end

/-- The chunks of some clusters. -/
def chunksOf (graph : MainGraph) (clusters : List Cluster) : List (Cluster × ChunkUpdate) :=
  clusters.flatMap fun c => (c.chunkUpdates graph.order).map fun u => (c, u)

lemma Settled.updated {processed : List Cluster} (settled : G.Settled (G.chunksOf processed) g)
  (hk : ∀ c ∈ processed, c ∈ G.clusters) (hc : c ∈ G.clusters) (new : c ∉ processed) :
  G.Settled (G.chunksOf (processed ++ [c])) (g.updated c) := by
  obtain ⟨flat, -⟩ := laid hc
  obtain ⟨frame, index, hp⟩ := setPresent_spec g c c.txs
  set marked := c.txs.foldl (fun g idx => (g.clearChunkData idx).setPresent idx c) g
  have fresh : ∀ p ∈ G.chunksOf processed, ∀ i ∈ c.txs, i ∉ p.2.txs := by
    intro p hm i hi hb
    obtain ⟨c', hmc, pair⟩ := mem_flatMap.mp hm
    obtain ⟨u, chunk, rfl⟩ := mem_map.mp pair
    have inside' := mem_of_chunk (hk c' hmc) chunk hb
    exact new (cluster_eq_of_mem hc (hk c' hmc) hi inside' ▸ hmc)
  have holds : G.Stored (G.chunksOf processed) marked := by
    refine ⟨frame.fallbackOrder.trans settled.fallbackOrder, fun i => ?_, settled.known, ?_⟩
    · rw [frame.ref, settled.ref]
    intro p hm i k place
    have outside : i ∉ c.txs := fun hi =>
      fresh p hm i hi (fst_mem_of_mem_zipIdx place)
    rw [frame.entries i outside]
    exact settled.entries p hm i k place
  have kept : marked.mainChunkindex = g.mainChunkindex := by
    rw [index, filter_eq_self]
    intro x hm
    obtain ⟨p, hmp, rfl⟩ := settled.ends hm
    have inP := fst_mem_of_mem_zipIdx (settled.chunkEnd_place hmp)
    simpa using fun hi => fresh p hmp _ hi inP
  have start : G.Settled (G.chunksOf processed) marked := by
    refine ⟨holds, kept ▸ settled.index, ?_⟩
    rw [kept]
    exact settled.sorted_of holds fun _ => id
  have nodup := cluster_nodup hc
  rw [← flat] at fresh hp nodup
  have done := start.storeChunks hc (fun u hm => hm) nodup fresh hp
  rw [TxGraphImpl.updated, holds.refOrder, chunksOf, flatMap_append, flatMap_singleton]
  exact done

/-- After all updates every entry is final and the index has every chunk. -/
theorem load_settled (G : MainGraph) : G.Settled (G.chunksOf G.clusters) G.load := by
  refine foldl_inv (fun processed g => G.Settled (G.chunksOf processed) g)
    ⟨⟨rfl, fun _ => rfl, by simp [chunksOf], by simp [chunksOf]⟩, .refl _, .nil⟩
    fun processed c later g all settled => ?_
  have nodup : G.clusters.Nodup := G.sequences.of_map
  rw [all] at nodup
  refine settled.updated (fun c hm => by simp [all, hm]) (by simp [all]) fun hm => ?_
  exact (nodup_append.mp nodup).2.2 c hm c (.head _) rfl

/-- A chunk ahead of another one in its cluster is ahead of it in the index. -/
lemma compareEntries_of_ahead (ahead : u.Ahead u') :
  compareEntries G.order (G.stored a c u k) (G.stored b c' u' k') = .lt := by
  simp only [compareEntries, compareLex, compareOn, stored, Ordering.then_eq_lt, compare_lt_iff_lt,
    compare_eq_iff_eq]
  rcases ahead with lower | ⟨hs, less⟩
  · exact .inl lower
  · exact .inr ⟨hs, .inl less⟩

/-- The chunks in the order of the index. -/
structure Walk (graph : MainGraph) (walk : List (Cluster × ChunkUpdate)) : Prop where
  index : walk.map (fun p => p.2.chunkEnd) = graph.load.mainChunkindex
  perm : walk.Perm (graph.chunksOf graph.clusters)
  sorted : walk.Pairwise fun p q =>
    compareEntries graph.order (graph.endEntry p) (graph.endEntry q) = .lt

lemma exists_walk (G : MainGraph) : ∃ walk, G.Walk walk := by
  have settled := G.load_settled
  have same : List.Forall₂ (fun x (p : Cluster × ChunkUpdate) => x = p.2.chunkEnd)
    ((G.chunksOf G.clusters).map fun p => p.2.chunkEnd)
    (G.chunksOf G.clusters) := by
    rw [forall₂_map_left_iff]
    exact forall₂_same.mpr fun _ _ => rfl
  obtain ⟨walk, index, perm⟩ := perm_comp_forall₂ settled.index same
  rw [← forall₂_map_right_iff (R := Eq), forall₂_eq_eq_eq] at index
  have eq := index.symm
  refine ⟨walk, eq, perm, ?_⟩
  have sorted := settled.sorted
  rw [← eq, pairwise_map] at sorted
  refine sorted.imp_of_mem fun hmp hmq before => ?_
  exact (settled.chunkOrder_iff (perm.mem_iff.mp hmp) (perm.mem_iff.mp hmq)).mp before

end MainGraph

end TxGraph
