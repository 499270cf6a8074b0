import Andaluzcoin.SpanningForestMerge
import Andaluzcoin.RatedLattice
import Andaluzcoin.GreedyOrder

/-!
# The linearization of a forest

`GetLinearization` counts down the dependencies of the chunks and of the transactions of the
current chunk. What it includes next is the best of what is ready, so that the chunks, and the
transactions of each chunk, come in their greedy order.
-/

namespace ClusterLinearize

open RatedParts GreedyOrder List Function DepGraph FallbackOrder Ranking FeeFrac
open Finset (mem_sdiff card_eq_zero mem_filter sum_congr mem_insert sdiff_subset card_le_card)

section
variable {G : DepGraph} {K : Type*} {i j : ℕ}

/-- By lower rate, then by larger size, and then by the fallback order of the representatives, an
item appears after another. -/
def Later (fallback : FallbackOrder G) (rate : K → ℚ) (size : K → ℤ) (rep : K → ℕ)
  (a b : K) : Prop :=
  rate a < rate b ∨ rate a = rate b ∧
    (size b < size a ∨ size b = size a ∧ fallback.compare (rep a) (rep b) = .gt)

variable {fb : FallbackOrder G} {rate : K → ℚ} {size : K → ℤ} {rep : K → ℕ} {a b c : K}

lemma FallbackOrder.gt_iff (mi : i ∈ G.positions) (mj : j ∈ G.positions) :
  fb.compare i j = .gt ↔ fb.compare j i = .lt := by
  rw [fb.swap i mi j mj, Ordering.swap_eq_gt]

section
variable (ma : rep a ∈ G.positions)
include ma

section
variable (mb : rep b ∈ G.positions)
include mb

lemma Later.trans (mc : rep c ∈ G.positions) (first : Later fb rate size rep a b)
  (hse : Later fb rate size rep b c) : Later fb rate size rep a c := by
  rcases first with lower | ⟨hs, first⟩
  · rcases hse with hl' | ⟨hs', -⟩
    · exact .inl (lower.trans hl')
    · exact .inl (hs' ▸ lower)
  rcases hse with hl' | ⟨hs', hse⟩
  · exact .inl (hs ▸ hl')
  refine .inr ⟨hs.trans hs', ?_⟩
  rcases first with larger | ⟨he, after⟩
  · rcases hse with larger' | ⟨he', -⟩
    · exact .inl (larger'.trans larger)
    · exact .inl (he'.trans_lt larger)
  rcases hse with larger' | ⟨he', after'⟩
  · exact .inl (larger'.trans_eq he)
  refine .inr ⟨he'.trans he, ?_⟩
  rw [gt_iff ma mb] at after
  rw [gt_iff mb mc] at after'
  rw [gt_iff ma mc]
  exact fb.trans _ mc _ mb _ ma after' after

lemma Later.total (ne : rep a ≠ rep b) :
  Later fb rate size rep a b ∨ Later fb rate size rep b a := by
  rcases lt_trichotomy (rate a) (rate b) with lower | hs | hh
  · exact .inl (.inl lower)
  · rcases lt_trichotomy (size a) (size b) with smaller | he | larger
    · exact .inr (.inr ⟨hs.symm, .inl smaller⟩)
    · cases order : fb.compare (rep a) (rep b) with
      | lt => exact .inr (.inr ⟨hs.symm, .inr ⟨he, (gt_iff mb ma).mpr order⟩⟩)
      | eq => exact absurd (fb.eq _ ma _ mb order) ne
      | gt => exact .inl (.inr ⟨hs, .inr ⟨he.symm, order⟩⟩)
    · exact .inl (.inr ⟨hs, .inl larger⟩)
  · exact .inr (.inl hh)

lemma Later.asymm (first : Later fb rate size rep a b) : ¬ Later fb rate size rep b a := by
  intro hs
  have self := first.trans ma mb ma hs
  rcases self with lower | ⟨-, larger | ⟨-, after⟩⟩
  · exact lt_irrefl _ lower
  · exact lt_irrefl _ larger
  · rw [fb.refl _ ma] at after
    cases after

end

lemma Later.irrefl : ¬ Later fb rate size rep a a :=
  fun hl => hl.asymm ma ma hl

end

/-- The greatest of items with different representatives appears after none of the others. -/
lemma greatest_later {α : Type} {after : α → α → Bool} (item : α → K) {l : List α} {g : α}
  (hg : greatest after l = some g)
  (iff : ∀ a ∈ l, ∀ b ∈ l, after a b = true ↔ Later fb rate size rep (item a) (item b))
  (pos : ∀ a ∈ l, rep (item a) ∈ G.positions)
  (inj : ∀ a ∈ l, ∀ b ∈ l, rep (item a) = rep (item b) → a = b) :
  g ∈ l ∧ ∀ a ∈ l, a ≠ g → Later fb rate size rep (item a) (item g) := by
  refine greatest_best (R := fun a b => a ≠ b → Later fb rate size rep (item a) (item b))
    (fun a _ ne => absurd rfl ne) (fun a ma b mb => ?_) (fun a ma b mb c mc first hse ne => ?_) hg
  · split_ifs with below
    · exact fun _ => (iff b mb a ma).mp below
    · exact fun ne => (Later.total (pos a ma) (pos b mb) (mt (inj a ma b mb) ne)).resolve_right
        (mt (iff b mb a ma).mpr below)
  · by_cases same : a = b
    · exact same ▸ hse (same ▸ ne)
    by_cases same' : b = c
    · exact same' ▸ first same
    exact (first same).trans (pos a ma) (pos b mb) (pos c mc) (hse same')

/-- The comparison of two different items, of transactions or of chunks. -/
lemma compare_later {first second : FeeFrac} (pos : 0 < first.size) (pos' : 0 < second.size)
  (mi : i ∈ G.positions) (mj : j ∈ G.positions) (ne : i ≠ j) :
  (match first.feeRateCompare second with
    | .lt => true
    | .gt => false
    | .eq =>
      if first.size ≠ second.size then decide (second.size < first.size)
      else match fb.compare i j with
        | .gt => true
        | .lt => false
        | .eq => decide (i < j)) = true ↔
    first.rate < second.rate ∨ first.rate = second.rate ∧
      (second.size < first.size ∨ second.size = first.size ∧ fb.compare i j = .gt) := by
  cases cmp : first.feeRateCompare second with
  | lt =>
    have lower := (feeRateCompare_eq_lt pos pos').mp cmp
    exact iff_of_true rfl (.inl lower)
  | gt =>
    have higher := (feeRateCompare_eq_gt pos pos').mp cmp
    refine iff_of_false (by simp) ?_
    rintro (lower | ⟨equal, -⟩)
    · exact lt_asymm higher lower
    · exact higher.ne equal.symm
  | eq =>
    have equal := (feeRateCompare_eq_eq pos pos').mp cmp
    simp only [equal, lt_irrefl, false_or, true_and]
    by_cases sizes : first.size = second.size
    · cases order : fb.compare i j with
      | lt => simp [sizes]
      | eq => exact absurd (fb.eq i mi j mj order) ne
      | gt => simp [sizes]
    · have sizes' : ¬ second.size = first.size := fun eq => sizes eq.symm
      simp [sizes, sizes']

end

namespace SpanningForestState

variable {G : DepGraph} {fb : FallbackOrder G} {s : SpanningForestState}

/-- A transaction appears after another. -/
def TxLater (fallback : FallbackOrder G) : ℕ → ℕ → Prop :=
  Later fallback (fun i => (G.feerate i).rate) (fun i => (G.feerate i).size) id

lemma txAfter_iff (positive : G.Positive) {a b : ℕ} (ma : a ∈ G.positions)
  (mb : b ∈ G.positions) : txAfter fb a b = true ↔ TxLater fb a b := by
  rw [txAfter]
  split_ifs with hs
  · subst hs
    exact iff_of_false (by simp) (Later.irrefl (show id a ∈ G.positions from ma))
  · exact compare_later (positive a ma) (positive b mb) ma mb hs

/-- The highest element of a set, by the fallback order. -/
def highest (fallback : FallbackOrder G) (C : Finset ℕ) : ℕ :=
  match ascending C with
  | [] => 0
  | i :: rest => rest.foldl (fun ret i => if fallback.compare i ret = .gt then i else ret) i

lemma maxFallback_eq (idx : ℕ) :
  s.maxFallback fb idx = highest fb (s.setInfo idx).transactions := rfl

lemma highest_mem (fb : FallbackOrder G) {C : Finset ℕ} (nonempty : C.Nonempty) :
  highest fb C ∈ C := by
  rw [highest]
  split
  · next empty =>
    obtain ⟨i, mi⟩ := nonempty
    have listed := mem_ascending.mpr mi
    rw [empty] at listed
    cases listed
  · next first rest eq =>
    refine foldlRecOn (motive := (· ∈ C)) rest _ (mem_ascending.mp (by simp [eq]))
      fun ret isIn i mi => ?_
    split_ifs
    · exact mem_ascending.mp (by simp [eq, mi])
    · exact isIn

/-- A chunk appears after another. -/
def ChunkLater (fallback : FallbackOrder G) : Finset ℕ → Finset ℕ → Prop :=
  Later fallback (fun C => (G.feeRate C).rate) (fun C => (G.feeRate C).size)
    (highest fallback)

/-- A chunk of the forest, with its highest element. -/
structure IsChunk (G : DepGraph) (fallback : FallbackOrder G) (s : SpanningForestState)
  (chunk : ℕ × ℕ) : Prop where
  mem : chunk.1 ∈ s.chunkIdxs
  highest : chunk.2 = s.maxFallback fallback chunk.1

namespace Rep

variable (rep : Rep G s) {idx idx' : ℕ}
include rep

variable (isChunk : idx ∈ s.chunkIdxs)
include isChunk

lemma chunk_nonempty : (s.setInfo idx).transactions.Nonempty := by
  obtain ⟨i, mi, rfl⟩ := rep.owner idx isChunk
  exact ⟨i, rep.span.self i mi⟩

lemma chunk_positions : (s.setInfo idx).transactions ⊆ G.positions := by
  obtain ⟨i, mi, rfl⟩ := rep.owner idx isChunk
  exact rep.chunk_sub mi

lemma mem_chunk {i : ℕ} :
  i ∈ (s.setInfo idx).transactions ↔ i ∈ G.positions ∧ s.chunkIdx i = idx := by
  obtain ⟨x, mx, rfl⟩ := rep.owner idx isChunk
  constructor
  · exact fun hi => ⟨rep.chunk_sub mx hi, rep.home x mx i hi⟩
  · exact fun ⟨mi, hs⟩ => (rep.mem_part mx mi).mpr hs

lemma chunk_inj (hc' : idx' ∈ s.chunkIdxs)
  (hs : (s.setInfo idx).transactions = (s.setInfo idx').transactions) : idx = idx' := by
  obtain ⟨i, hi⟩ := rep.chunk_nonempty isChunk
  have atI := ((rep.mem_chunk isChunk).mp hi).2
  rw [hs] at hi
  exact atI.symm.trans ((rep.mem_chunk hc').mp hi).2

lemma highest_inj (hc' : idx' ∈ s.chunkIdxs) (hs : highest fb (s.setInfo idx).transactions =
    highest fb (s.setInfo idx').transactions) : idx = idx' := by
  have high := highest_mem fb (rep.chunk_nonempty isChunk)
  have high' := highest_mem fb (rep.chunk_nonempty hc')
  rw [hs] at high
  exact ((rep.mem_chunk isChunk).mp high).2.symm.trans ((rep.mem_chunk hc').mp high').2

end Rep

lemma IsChunk.ext {c c' : ℕ × ℕ} (isChunk : IsChunk G fb s c)
  (hc' : IsChunk G fb s c') (hs : c.1 = c'.1) : c = c' :=
  Prod.ext hs (by rw [isChunk.highest, hc'.highest, hs])

lemma chunkAfter_iff (rep : Rep G s) (positive : G.Positive) {a b : ℕ × ℕ}
  (isA : IsChunk G fb s a) (isB : IsChunk G fb s b) :
  s.chunkAfter fb a b = true ↔ ChunkLater fb (s.setInfo a.1).transactions
    (s.setInfo b.1).transactions := by
  have highA := highest_mem fb (rep.chunk_nonempty isA.mem)
  have highB := highest_mem fb (rep.chunk_nonempty isB.mem)
  have subA := rep.chunk_positions isA.mem
  have subB := rep.chunk_positions isB.mem
  rw [chunkAfter]
  split_ifs with hs
  · rw [hs]
    exact iff_of_false (by simp) (Later.irrefl (subB highB))
  have ne : highest fb (s.setInfo a.1).transactions ≠
    highest fb (s.setInfo b.1).transactions := fun eq =>
    hs (rep.highest_inj isA.mem isB.mem eq)
  have posA : 0 < (s.setInfo a.1).feerate.size := by
    rw [rep.chunkRate _ isA.mem]
    exact feeRate_size_pos positive subA (rep.chunk_nonempty isA.mem)
  have posB : 0 < (s.setInfo b.1).feerate.size := by
    rw [rep.chunkRate _ isB.mem]
    exact feeRate_size_pos positive subB (rep.chunk_nonempty isB.mem)
  rw [isA.highest, isB.highest, maxFallback_eq, maxFallback_eq]
  refine (compare_later posA posB (subA highA) (subB highB) ne).trans ?_
  rw [rep.chunkRate _ isA.mem, rep.chunkRate _ isB.mem]
  rfl

section
variable {A : Finset ℕ} {met' : ℕ → Finset ℕ}

/-- The out-of-chunk parents of the transactions of a chunk that have not been met. -/
def openDeps (G : DepGraph) (s : SpanningForestState) (met : ℕ → Finset ℕ) (idx : ℕ) : ℕ :=
  ∑ t ∈ G.positions with s.chunkIdx t = idx,
    ((G.getReducedParents t \ (s.setInfo idx).transactions) \ met t).card

/-- The counters, and the list of the chunks that are ready, after the given parents have been
met. -/
structure Tallied (G : DepGraph) (fallback : FallbackOrder G) (s : SpanningForestState)
  (met : ℕ → Finset ℕ) (emitted : List ℕ) (e : Emission) : Prop where
  txDeps : ∀ t ∈ G.positions, e.txDeps t = (G.getReducedParents t \ met t).card
  chunkDeps : ∀ idx ∈ s.chunkIdxs, e.chunkDeps idx = openDeps G s met idx
  done : ∀ t ∈ e.ret, e.txDeps t = 0
  emittedDone : ∀ idx ∈ emitted, e.chunkDeps idx = 0
  nodupChunks : e.readyChunks.Nodup
  readyChunks : ∀ c, c ∈ e.readyChunks ↔
    IsChunk G fallback s c ∧ c.1 ∉ emitted ∧ e.chunkDeps c.1 = 0

/-- Within a chunk, also the list of its transactions that are ready. -/
structure Counted (G : DepGraph) (fallback : FallbackOrder G) (s : SpanningForestState)
  (met : ℕ → Finset ℕ) (chunkIdx : ℕ) (emitted : List ℕ) (e : Emission) : Prop extends
  Tallied G fallback s met emitted e where
  nodupTx : e.readyTx.Nodup
  readyTx : ∀ t, t ∈ e.readyTx ↔
    t ∈ (s.setInfo chunkIdx).transactions ∧ t ∉ e.ret ∧ e.txDeps t = 0

variable {met : ℕ → Finset ℕ} {k : ℕ} {emitted : List ℕ} {e : Emission} {i child : ℕ}

lemma card_sdiff_insert {B : Finset ℕ} (inA : i ∈ A) (open_ : i ∉ B) :
  (A \ insert i B).card = (A \ B).card - 1 ∧ 0 < (A \ B).card := by
  have mem : i ∈ A \ B := mem_sdiff.mpr ⟨inA, open_⟩
  rw [Finset.sdiff_insert, Finset.card_erase_of_mem mem]
  exact ⟨rfl, Finset.card_pos.mpr ⟨i, mem⟩⟩

lemma card_sdiff_concat {done : List ℕ} {fuel : ℕ} (inA : i ∈ A) (open_ : i ∉ done)
  (he : (A \ done.toFinset).card ≤ fuel + 1) : (A \ (done ++ [i]).toFinset).card ≤ fuel := by
  obtain ⟨less, pos⟩ := card_sdiff_insert inA (mt mem_toFinset.mp open_)
  rw [toFinset_append, toFinset_cons, toFinset_nil, insert_empty_eq, Finset.union_comm,
    ← Finset.insert_eq]
  omega

lemma mem_of_card_sdiff {done : List ℕ} (he : (A \ done.toFinset).card ≤ 0) : ∀ t ∈ A, t ∈ done := by
  have none_ := card_eq_zero.mp (Nat.le_zero.mp he)
  exact fun t hi => mem_toFinset.mp (Finset.sdiff_eq_empty_iff_subset.mp none_ hi)

/-- Meeting an in-chunk parent leaves the count of the chunk as it is, and meeting another one
takes one away. -/
lemma openDeps_update {idx : ℕ} (mc : child ∈ G.positions)
  (hp : i ∈ G.getReducedParents child) (open_ : i ∉ met child) :
  openDeps G s (update met child (insert i (met child))) idx = openDeps G s met idx -
        (if s.chunkIdx child = idx ∧ i ∉ (s.setInfo idx).transactions then 1 else 0) ∧
    (s.chunkIdx child = idx ∧ i ∉ (s.setInfo idx).transactions → 0 < openDeps G s met idx) := by
  set S := G.positions.filter fun t => s.chunkIdx t = idx with isS
  have others : ∀ t ∈ S.erase child, ((G.getReducedParents t \ (s.setInfo idx).transactions) \
      update met child (insert i (met child)) t).card =
    ((G.getReducedParents t \ (s.setInfo idx).transactions) \ met t).card := by
    intro t mt
    rw [update_of_ne (Finset.ne_of_mem_erase mt)]
  by_cases hh : s.chunkIdx child = idx
  · have inS : child ∈ S := mem_filter.mpr ⟨mc, hh⟩
    rw [openDeps, openDeps, ← isS, ← Finset.add_sum_erase S _ inS, ← Finset.add_sum_erase S _ inS,
      sum_congr rfl others, update_self]
    by_cases hi : i ∈ (s.setInfo idx).transactions
    · rw [if_neg (by simp [hi])]
      have same : (G.getReducedParents child \ (s.setInfo idx).transactions) \
        insert i (met child) =
        (G.getReducedParents child \ (s.setInfo idx).transactions) \ met child := by
        ext t
        simp only [mem_sdiff, mem_insert, not_or]
        constructor
        · exact fun ⟨out, _, new⟩ => ⟨out, new⟩
        · exact fun ⟨out, new⟩ => ⟨out, fun eq => out.2 (eq ▸ hi), new⟩
      rw [same]
      exact ⟨rfl, fun ⟨_, out⟩ => absurd hi out⟩
    · rw [if_pos ⟨hh, hi⟩]
      obtain ⟨less, pos⟩ := card_sdiff_insert (A := G.getReducedParents child \
        (s.setInfo idx).transactions) (mem_sdiff.mpr ⟨hp, hi⟩) open_
      rw [less]
      omega
  · have notIn : child ∉ S := fun inS => hh (mem_filter.mp inS).2
    rw [Finset.erase_eq_of_notMem notIn] at others
    rw [if_neg (fun hb => hh hb.1), openDeps, openDeps, ← isS, sum_congr rfl others]
    exact ⟨rfl, fun hb => absurd hb.1 hh⟩

lemma countDown_eq : s.countDown fb k e child = { e with
  txDeps := update e.txDeps child (e.txDeps child - 1)
  readyTx := if e.txDeps child - 1 = 0 ∧ child ∈ (s.setInfo k).transactions
    then e.readyTx ++ [child] else e.readyTx
  chunkDeps := if s.chunkIdx child ≠ k then update e.chunkDeps (s.chunkIdx child)
    (e.chunkDeps (s.chunkIdx child) - 1) else e.chunkDeps
  readyChunks := if s.chunkIdx child ≠ k ∧ e.chunkDeps (s.chunkIdx child) - 1 = 0
    then e.readyChunks ++ [(s.chunkIdx child, s.maxFallback fb (s.chunkIdx child))]
    else e.readyChunks } := by
  rw [countDown]
  split_ifs <;> simp_all

section
variable {α : Type*} {l : List α} {a : α} {P : Prop} [Decidable P]

lemma nodup_concat_if (nodup : l.Nodup) (new : P → a ∉ l) : (if P then l ++ [a] else l).Nodup := by
  split_ifs with hP
  · refine nodup_append.mpr ⟨nodup, nodup_singleton _, ?_⟩
    rintro b old c mc rfl
    exact new hP (mem_singleton.mp mc ▸ old)
  · exact nodup

lemma mem_concat_if {Q Q' : α → Prop} (old : ∀ b, b ∈ l ↔ Q b) (new : a ∉ l) (self : Q' a ↔ P)
  (other : ∀ b ≠ a, (Q' b ↔ Q b)) (b : α) : b ∈ (if P then l ++ [a] else l) ↔ Q' b := by
  by_cases hb : b = a
  · rw [hb, self]
    split_ifs with hP
    · simp [hP]
    · simp [hP, new]
  · rw [other b hb, ← old]
    split_ifs
    · simp [hb]
    · rfl

end

/-- A parent of the child has been met. -/
lemma Counted.countDown (hc : Counted G fb s met k emitted e) (rep : Rep G s)
  (isChunk : k ∈ s.chunkIdxs) (mc : child ∈ G.positions) (hp : i ∈ G.getReducedParents child)
  (open_ : i ∉ met child) (hi : i ∈ (s.setInfo k).transactions) :
  Counted G fb s (update met child (insert i (met child))) k emitted
    (s.countDown fb k e child) := by
  obtain ⟨less, pos⟩ := card_sdiff_insert hp open_
  rw [← hc.txDeps child mc] at less pos
  have chunk := rep.chunk child mc
  -- the count of a chunk goes down where the parent is in another one
  have foreign : ∀ idx ∈ s.chunkIdxs, (s.chunkIdx child = idx ∧ i ∉ (s.setInfo idx).transactions ↔
    s.chunkIdx child = idx ∧ s.chunkIdx child ≠ k) := by
    intro idx isIdx
    refine and_congr_right fun atC => not_congr ?_
    have atI := ((rep.mem_chunk isChunk).mp hi).2
    rw [rep.mem_chunk isIdx, and_iff_right (rep.chunk_positions isChunk hi), atI, atC, eq_comm]
  have outer : s.chunkIdx child ≠ k → 0 < e.chunkDeps (s.chunkIdx child) := by
    intro ne
    rw [hc.chunkDeps _ chunk]
    exact (openDeps_update mc hp open_).2 ((foreign _ chunk).mpr ⟨rfl, ne⟩)
  have newTx : child ∉ e.readyTx := fun mt => pos.ne' ((hc.readyTx child).mp mt).2.2
  have newChunk : s.chunkIdx child ≠ k → ∀ c ∈ e.readyChunks, c.1 ≠ s.chunkIdx child :=
    fun ne c mc hs => (outer ne).ne' (hs ▸ ((hc.readyChunks c).mp mc).2.2)
  rw [countDown_eq]
  refine ⟨⟨?_, ?_, ?_, ?_, ?_, ?_⟩, ?_, ?_⟩ <;> dsimp only
  · intro t mt
    by_cases hs : t = child
    · rw [hs, update_self, update_self, less]
    · rw [update_of_ne hs, update_of_ne hs]
      exact hc.txDeps t mt
  · intro idx isIdx
    rw [(openDeps_update mc hp open_).1, ← hc.chunkDeps idx isIdx]
    have counts := foreign idx isIdx
    by_cases hh : s.chunkIdx child = idx ∧ s.chunkIdx child ≠ k
    · rw [if_pos hh.2, if_pos (counts.mpr hh), ← hh.1, update_self]
    rw [if_neg (fun hb => hh (counts.mp hb))]
    split_ifs with ne
    · rw [update_of_ne (fun eq => hh ⟨eq.symm, ne⟩)]
      rfl
    · rfl
  · intro t mt
    have zero := hc.done t mt
    by_cases hs : t = child
    · rw [hs] at zero
      omega
    · rw [update_of_ne hs, zero]
  · intro idx isEmitted
    have zero := hc.emittedDone idx isEmitted
    split_ifs with ne
    · by_cases atC : idx = s.chunkIdx child
      · rw [atC, update_self, ← atC, zero]
      · rw [update_of_ne atC, zero]
    · exact zero
  · exact nodup_concat_if hc.nodupChunks fun ready old => newChunk ready.1 _ old rfl
  · by_cases ne : s.chunkIdx child = k
    · rw [if_neg (fun hb => hb.1 ne), if_neg (fun ne' => ne' ne)]
      exact hc.readyChunks
    rw [if_pos ne]
    have pos := outer ne
    refine mem_concat_if hc.readyChunks ?_ ?_ ?_
    · exact fun old => newChunk ne _ old rfl
    · have notEmitted : s.chunkIdx child ∉ emitted := fun mem => by
        have zero := hc.emittedDone _ mem
        omega
      rw [update_self]
      exact ⟨fun ready => ⟨ne, ready.2.2⟩, fun ready => ⟨⟨chunk, rfl⟩, notEmitted, ready.2⟩⟩
    · intro c other
      by_cases hs : c.1 = s.chunkIdx child
      · refine and_congr_right fun known => absurd (Prod.ext hs ?_) other
        rw [known.2, hs]
      · rw [update_of_ne hs]
  · exact nodup_concat_if hc.nodupTx fun _ => newTx
  · refine mem_concat_if hc.readyTx newTx ?_ fun t other => by rw [update_of_ne other]
    have notRet : child ∉ e.ret := fun mt => by
      have zero := hc.done child mt
      omega
    rw [update_self]
    exact ⟨fun ready => ⟨ready.2.2, ready.1⟩, fun ready => ⟨ready.2, notRet, ready.1⟩⟩

lemma Tallied.congr (ht : Tallied G fb s met emitted e) (hs : ∀ t ∈ G.positions, met' t = met t) :
  Tallied G fb s met' emitted e := by
  refine { ht with txDeps := fun t mt => ?_, chunkDeps := fun idx isIdx => ?_ }
  · rw [hs t mt]
    exact ht.txDeps t mt
  · rw [ht.chunkDeps idx isIdx, openDeps, openDeps]
    refine sum_congr rfl fun t mt => ?_
    rw [hs t (mem_filter.mp mt).1]

lemma Counted.congr (hc : Counted G fb s met k emitted e) (hs : ∀ t ∈ G.positions, met' t = met t) :
  Counted G fb s met' k emitted e :=
  ⟨hc.toTallied.congr hs, hc.nodupTx, hc.readyTx⟩

/-- The transaction has been included, and its children are told. -/
lemma Counted.countAll (rep : Rep G s)
  (isChunk : k ∈ s.chunkIdxs) (hin : i ∈ (s.setInfo k).transactions) :
  ∀ (l : List ℕ) (met : ℕ → Finset ℕ) (e : Emission), Counted G fb s met k emitted e → l.Nodup →
    (∀ child ∈ l, child ∈ G.children i ∧ i ∉ met child) →
    Counted G fb s (fun t => if t ∈ l then insert i (met t) else met t) k emitted
        (l.foldl (s.countDown fb k) e) ∧ (l.foldl (s.countDown fb k) e).ret = e.ret := by
  intro l
  induction l with
  | nil =>
    intro met e hc _ _
    exact ⟨hc.congr fun t _ => by simp, rfl⟩
  | cons child l ih =>
    intro met e hc nodup open_
    obtain ⟨hi, hn'⟩ := nodup_cons.mp nodup
    obtain ⟨hch, new⟩ := open_ child (.head _)
    obtain ⟨mc, hp⟩ := mem_children.mp hch
    have first := hc.countDown rep isChunk mc hp new hin
    obtain ⟨rest, ret⟩ := ih _ _ first hn' fun other mo => by
      have ne : other ≠ child := fun eq => hi (eq ▸ mo)
      rw [update_of_ne ne]
      exact open_ other (.tail _ mo)
    rw [foldl_cons]
    refine ⟨rest.congr fun t _ => ?_, ret.trans (by rw [countDown_eq])⟩
    by_cases hs : t = child
    · subst hs
      rw [if_pos (.head _), if_neg hi, update_self]
    · rw [update_of_ne hs]
      simp only [mem_cons, hs, false_or]

/-- The parents of a transaction that are included. -/
def included (G : DepGraph) (ret : List ℕ) (t : ℕ) : Finset ℕ :=
  (G.getReducedParents t).filter (· ∈ ret)

lemma sdiff_included_eq_empty {ret : List ℕ} {t : ℕ} (sub : A ⊆ G.getReducedParents t) :
  (A \ included G ret t).card = 0 ↔ ∀ p ∈ A, p ∈ ret := by
  rw [card_eq_zero, Finset.sdiff_eq_empty_iff_subset]
  constructor
  · exact fun all p mp => (mem_filter.mp (all mp)).2
  · exact fun all p mp => mem_filter.mpr ⟨sub mp, all p mp⟩

/-- A ready transaction of the chunk is included. -/
lemma Counted.include (hc : Counted G fb s (included G e.ret) k emitted e)
  (rep : Rep G s) (isChunk : k ∈ s.chunkIdxs) (hr : i ∈ e.readyTx) {e' : Emission}
  (eq : e' = (ascending (G.children i)).foldl (s.countDown fb k)
    { e with readyTx := e.readyTx.erase i, ret := e.ret ++ [i] }) :
  e'.ret = e.ret ++ [i] ∧ Counted G fb s (included G e'.ret) k emitted e' := by
  obtain ⟨hi, new, hz⟩ := (hc.readyTx i).mp hr
  have moved : Counted G fb s (included G e.ret) k emitted
    { e with readyTx := e.readyTx.erase i, ret := e.ret ++ [i] } := by
    refine ⟨{ hc with done := ?_ }, hc.nodupTx.erase i, fun t => ?_⟩
    · intro t mt
      rcases mem_append.mp mt with old | isI
      · exact hc.done t old
      · exact mem_singleton.mp isI ▸ hz
    · rw [hc.nodupTx.mem_erase_iff, hc.readyTx, mem_append, mem_singleton]
      tauto
  obtain ⟨told, ret⟩ := Counted.countAll rep isChunk hi (ascending (G.children i)) _ _ moved
    (nodup_ascending _) fun child mc =>
      ⟨mem_ascending.mp mc, fun met => new (Finset.mem_filter.mp met).2⟩
  rw [← eq] at told ret
  refine ⟨ret, told.congr fun t mt => ?_⟩
  ext p
  rw [ret]
  simp only [mem_ascending, mem_children, mt, true_and]
  split_ifs with hp
  · simp only [included, Finset.mem_filter, mem_insert, mem_append, mem_singleton]
    constructor
    · rintro ⟨mp, old | rfl⟩
      · exact .inr ⟨mp, old⟩
      · exact .inl rfl
    · rintro (rfl | ⟨mp, old⟩)
      · exact ⟨hp, .inr rfl⟩
      · exact ⟨mp, .inl old⟩
  · simp only [included, Finset.mem_filter, mem_append, mem_singleton]
    refine and_congr_right fun mp => or_iff_left ?_
    rintro rfl
    exact hp mp

end

variable {k : ℕ} {emitted : List ℕ} {e : Emission} {level : Finset ℕ → ℕ} {positive : G.Positive}

/-- What a transaction comes after. -/
def TxNeeds (G : DepGraph) (a b : ℕ) : Prop := b ∈ G.getReducedParents a

/-- What is ahead of another transaction, where both are ready. -/
def TxFirst (fallback : FallbackOrder G) (a b : ℕ) : Prop := TxLater fallback b a

/-- Once the parents in other chunks are included, a transaction waits for those in its own. -/
lemma Counted.readyTx_iff (hc : Counted G fb s (included G e.ret) k emitted e) (rep : Rep G s)
  (isChunk : k ∈ s.chunkIdxs) (ho : ∀ t ∈ (s.setInfo k).transactions, ∀ p ∈ G.getReducedParents t,
    p ∉ (s.setInfo k).transactions → p ∈ e.ret) (t : ℕ) :
  t ∈ e.readyTx ↔ t ∈ (s.setInfo k).transactions ∧ t ∉ e.ret ∧
    Ready (s.setInfo k).transactions (TxNeeds G) e.ret t := by
  rw [hc.readyTx]
  refine and_congr_right fun hi => and_congr_right fun _ => ?_
  rw [hc.txDeps t (rep.chunk_positions isChunk hi), sdiff_included_eq_empty subset_rfl]
  constructor
  · exact fun all p _ hp => all p hp
  intro hr p hp
  by_cases inC : p ∈ (s.setInfo k).transactions
  · exact hr p inC hp
  · exact ho t hi p hp inC

lemma exists_readyTx (ha : G.isAcyclic = true) {C : Finset ℕ} (sub : C ⊆ G.positions)
  {listed : List ℕ} {t : ℕ} (hi : t ∈ C) (open_ : t ∉ listed) :
  ∃ u ∈ C, u ∉ listed ∧ Ready C (TxNeeds G) listed u :=
  exists_ready_of_level (fun t => (G.ancestors t).card)
    (fun _ ma _ _ hn => card_ancestors_lt ha (sub ma) hn) hi open_

/-- The loop over the transactions of a chunk lists them in their greedy order. -/
lemma emitTransactions_spec (hac : G.isAcyclic = true) (positive : G.Positive)
  (rep : Rep G s) (isChunk : k ∈ s.chunkIdxs) : ∀ (fuel : ℕ) (e : Emission),
  Counted G fb s (included G e.ret) k emitted e →
  (∀ t ∈ (s.setInfo k).transactions, ∀ p ∈ G.getReducedParents t,
    p ∉ (s.setInfo k).transactions → p ∈ e.ret) →
  ((s.setInfo k).transactions \ e.ret.toFinset).card ≤ fuel →
  ∃ l, (s.emitTransactions fb k fuel e).ret = e.ret ++ l ∧
    Continues (s.setInfo k).transactions (TxNeeds G) (TxFirst fb) e.ret l ∧
    Tallied G fb s (included G (s.emitTransactions fb k fuel e).ret) emitted
      (s.emitTransactions fb k fuel e) := by
  have sub := rep.chunk_positions isChunk
  intro fuel
  induction fuel with
  | zero =>
    intro e hc _ he
    exact ⟨[], (append_nil _).symm, .nil (mem_of_card_sdiff he), hc.toTallied⟩
  | succ fuel ih =>
    intro e hc ho he
    have ready_iff := hc.readyTx_iff rep isChunk ho
    rw [emitTransactions]
    cases found : greatest (txAfter fb) e.readyTx with
    | none =>
      refine ⟨[], (append_nil _).symm, .nil fun t hi => ?_, hc.toTallied⟩
      by_contra open_
      obtain ⟨u, hi', open', hr⟩ := exists_readyTx hac sub hi open_
      have listed := (ready_iff u).mpr ⟨hi', open', hr⟩
      rw [greatest_eq_none found] at listed
      cases listed
    | some i =>
      have member : ∀ t ∈ e.readyTx, t ∈ G.positions := fun t mt =>
        sub ((ready_iff t).mp mt).1
      have after : ∀ a ∈ e.readyTx, ∀ b ∈ e.readyTx, txAfter fb a b = true ↔ TxLater fb a b :=
        fun a ma b mb => txAfter_iff positive (member a ma) (member b mb)
      obtain ⟨hre, ha⟩ := greatest_later id found after member fun _ _ _ _ => id
      obtain ⟨hi, open_, hr⟩ := (ready_iff i).mp hre
      obtain ⟨ret, hc'⟩ := hc.include rep isChunk hre rfl
      simp only
      generalize (ascending (G.children i)).foldl (s.countDown fb k)
        { e with readyTx := e.readyTx.erase i, ret := e.ret ++ [i] } = e' at ret hc' ⊢
      obtain ⟨l, ret', hco, tallied⟩ := ih e' hc' (fun t inC p hp out => by
          rw [ret]
          exact mem_append_left _ (ho t inC p hp out)) (ret ▸ card_sdiff_concat hi open_ he)
      rw [ret] at ret' hco
      refine ⟨i :: l, by simpa using ret', .cons hi open_ hr ?_ hco, tallied⟩
      exact fun b hi' open' ne hr' => ha b ((ready_iff b).mpr ⟨hi', open', hr'⟩) ne

/-- What a chunk comes after. -/
def ChunkNeeds (G : DepGraph) (A B : Finset ℕ) : Prop :=
  A ≠ B ∧ ∃ c ∈ A, ∃ p ∈ B, p ∈ G.getReducedParents c

/-- What is ahead of another chunk, where both are ready. -/
def ChunkFirst (fallback : FallbackOrder G) (A B : Finset ℕ) : Prop := ChunkLater fallback B A

/-- The same for the indexes of the chunks. -/
def IdxNeeds (G : DepGraph) (s : SpanningForestState) (a b : ℕ) : Prop :=
  ChunkNeeds G (s.setInfo a).transactions (s.setInfo b).transactions

def IdxFirst (fallback : FallbackOrder G) (s : SpanningForestState) (a b : ℕ) : Prop :=
  ChunkFirst fallback (s.setInfo a).transactions (s.setInfo b).transactions

/-- The included transactions are those of the emitted chunks. -/
def Includes (G : DepGraph) (s : SpanningForestState) (emitted ret : List ℕ) : Prop :=
  ∀ t, t ∈ ret ↔ t ∈ G.positions ∧ s.chunkIdx t ∈ emitted

/-- A ready chunk depends on emitted ones only. -/
lemma ready_parents {ret : List ℕ} (hin : Includes G s emitted ret) (rep : Rep G s)
  (isChunk : k ∈ s.chunkIdxs) : Ready s.chunkIdxs (IdxNeeds G s) emitted k ↔
    ∀ t ∈ (s.setInfo k).transactions, ∀ p ∈ G.getReducedParents t,
      p ∉ (s.setInfo k).transactions → p ∈ ret := by
  constructor
  · intro hr t hi p hp out
    have mt := rep.chunk_positions isChunk hi
    have mp := parent_mem (mem_children.mpr ⟨mt, hp⟩)
    have own := (rep.mem_chunk (rep.chunk p mp)).mpr ⟨mp, rfl⟩
    refine (hin p).mpr ⟨mp, hr _ (rep.chunk p mp) ⟨?_, t, hi, p, own, hp⟩⟩
    intro hs
    exact out (hs ▸ own)
  rintro all b hc' ⟨ne, c, hi, p, hi', hp⟩
  obtain ⟨-, atP⟩ := (rep.mem_chunk hc').mp hi'
  have out : p ∉ (s.setInfo k).transactions := by
    intro inK
    obtain ⟨-, atP'⟩ := (rep.mem_chunk isChunk).mp inK
    exact ne (by rw [← atP', atP])
  exact atP ▸ ((hin p).mp (all c hi p hp out)).2

lemma Tallied.readyChunks_iff (ht : Tallied G fb s (included G e.ret) emitted e) (rep : Rep G s)
  (hin : Includes G s emitted e.ret) (c : ℕ × ℕ) :
  c ∈ e.readyChunks ↔ IsChunk G fb s c ∧ c.1 ∉ emitted ∧
    Ready s.chunkIdxs (IdxNeeds G s) emitted c.1 := by
  rw [ht.readyChunks]
  refine and_congr_right fun isChunk => and_congr_right fun _ => ?_
  rw [ht.chunkDeps _ isChunk.mem, ready_parents hin rep isChunk.mem, openDeps,
    Finset.sum_eq_zero_iff]
  constructor
  · intro none_ t hi p hp out
    obtain ⟨mt, atT⟩ := (rep.mem_chunk isChunk.mem).mp hi
    have zero := none_ t (mem_filter.mpr ⟨mt, atT⟩)
    rw [sdiff_included_eq_empty sdiff_subset] at zero
    exact zero p (mem_sdiff.mpr ⟨hp, out⟩)
  intro all t mt
  obtain ⟨mt, atT⟩ := mem_filter.mp mt
  rw [sdiff_included_eq_empty sdiff_subset]
  intro p mp
  obtain ⟨hp, out⟩ := mem_sdiff.mp mp
  exact all t ((rep.mem_chunk isChunk.mem).mpr ⟨mt, atT⟩) p hp out

lemma exists_readyChunk (rep : Rep G s) (hl : Layered (G.network positive) (chunkOf G s) level)
  (isChunk : k ∈ s.chunkIdxs) (open_ : k ∉ emitted) :
  ∃ b ∈ s.chunkIdxs, b ∉ emitted ∧ Ready s.chunkIdxs (IdxNeeds G s) emitted b := by
  refine exists_ready_of_level (fun idx => level (s.setInfo idx).transactions) ?_ isChunk open_
  rintro a isA b isB ⟨ne, c, hi, p, hi', hp⟩
  obtain ⟨mc, rfl⟩ := (rep.mem_chunk isA).mp hi
  obtain ⟨mp, rfl⟩ := (rep.mem_chunk isB).mp hi'
  rw [← chunkOf_eq mc, ← chunkOf_eq mp] at ne ⊢
  exact hl.ascends p c (mem_children.mpr ⟨mc, hp⟩) ne.symm

lemma Tallied.enter {chunk : ℕ × ℕ} (ht : Tallied G fb s (included G e.ret) emitted e)
  (rep : Rep G s) (hin : Includes G s emitted e.ret) (hr : chunk ∈ e.readyChunks) :
  Counted G fb s (included G e.ret) chunk.1 (emitted ++ [chunk.1]) { e with
      readyChunks := e.readyChunks.erase chunk
      readyTx := (ascending (s.setInfo chunk.1).transactions).filter fun i =>
        e.txDeps i == 0 } := by
  obtain ⟨isChunk, open_, hz⟩ := (ht.readyChunks chunk).mp hr
  refine ⟨⟨ht.txDeps, ht.chunkDeps, ht.done, ?_, ht.nodupChunks.erase chunk,
    fun c => ?_⟩, (nodup_ascending _).filter _, fun t => ?_⟩
  · intro idx mem
    rcases mem_append.mp mem with old | isK
    · exact ht.emittedDone idx old
    · exact mem_singleton.mp isK ▸ hz
  · rw [ht.nodupChunks.mem_erase_iff, ht.readyChunks, mem_append, mem_singleton, not_or]
    constructor
    · rintro ⟨ne, hc', open', hz'⟩
      exact ⟨hc', ⟨open', fun hs => ne (hc'.ext isChunk hs)⟩, hz'⟩
    · rintro ⟨hc', ⟨open', ne⟩, hz'⟩
      exact ⟨fun hs => ne (hs ▸ rfl), hc', open', hz'⟩
  · rw [mem_filter, mem_ascending, beq_iff_eq]
    refine and_congr_right fun hi => ?_
    rw [and_iff_right]
    intro old
    have atT := ((rep.mem_chunk isChunk.mem).mp hi).2
    exact open_ (atT ▸ ((hin t).mp old).2)

lemma emitChunks_spec (fb : FallbackOrder G) (hac : G.isAcyclic = true) (rep : Rep G s)
  (hl : Layered (G.network positive) (chunkOf G s) level) :
  ∀ (fuel : ℕ) (emitted : List ℕ) (e : Emission), Tallied G fb s (included G e.ret) emitted e →
    Includes G s emitted e.ret → (s.chunkIdxs \ emitted.toFinset).card ≤ fuel →
    ∃ idxs lists, (s.emitChunks fb fuel e).ret = e.ret ++ lists.flatten ∧
      Continues s.chunkIdxs (IdxNeeds G s) (IdxFirst fb s) emitted idxs ∧
      List.Forall₂ (fun idx l => IsGreedy (s.setInfo idx).transactions (TxNeeds G)
        (TxFirst fb) l) idxs lists := by
  intro fuel
  induction fuel with
  | zero =>
    intro emitted e _ _ he
    exact ⟨[], [], (append_nil _).symm, .nil (mem_of_card_sdiff he), .nil⟩
  | succ fuel ih =>
    intro emitted e tallied hin he
    have ready_iff := tallied.readyChunks_iff rep hin
    rw [emitChunks]
    cases found : greatest (s.chunkAfter fb) e.readyChunks with
    | none =>
      refine ⟨[], [], (append_nil _).symm, .nil fun idx isChunk => ?_, .nil⟩
      by_contra open_
      obtain ⟨b, hc', open', hr⟩ := exists_readyChunk rep hl isChunk open_
      have listed := (ready_iff (b, s.maxFallback fb b)).mpr ⟨⟨hc', rfl⟩, open', hr⟩
      rw [greatest_eq_none found] at listed
      cases listed
    | some chunk =>
      have member : ∀ c ∈ e.readyChunks, IsChunk G fb s c := fun c mc =>
        ((ready_iff c).mp mc).1
      have high : ∀ c ∈ e.readyChunks,
        highest fb (s.setInfo c.1).transactions ∈ G.positions := fun c mc =>
        rep.chunk_positions (member c mc).mem
          (highest_mem fb (rep.chunk_nonempty (member c mc).mem))
      have after : ∀ a ∈ e.readyChunks, ∀ b ∈ e.readyChunks, s.chunkAfter fb a b = true ↔
        ChunkLater fb (s.setInfo a.1).transactions (s.setInfo b.1).transactions :=
        fun a ma b mb => chunkAfter_iff rep positive (member a ma) (member b mb)
      obtain ⟨hre, ha⟩ := greatest_later (fun c : ℕ × ℕ => (s.setInfo c.1).transactions) found after
        high
        fun a ma b mb hs => (member a ma).ext (member b mb)
          (rep.highest_inj (member a ma).mem (member b mb).mem hs)
      obtain ⟨isChunk, open_, hr⟩ := (ready_iff chunk).mp hre
      have outside := (ready_parents hin rep isChunk.mem).mp hr
      have apart : ∀ t ∈ (s.setInfo chunk.1).transactions, t ∉ e.ret := fun t hi old =>
        open_ (((rep.mem_chunk isChunk.mem).mp hi).2 ▸ ((hin t).mp old).2)
      obtain ⟨l, ret, hc, tallied'⟩ := emitTransactions_spec hac positive rep
        isChunk.mem (s.setInfo chunk.1).transactions.card
        { e with
          readyChunks := e.readyChunks.erase chunk
          readyTx := (ascending (s.setInfo chunk.1).transactions).filter fun i =>
            e.txDeps i == 0 }
        (tallied.enter rep hin hre) outside (card_le_card sdiff_subset)
      have greedy : IsGreedy (s.setInfo chunk.1).transactions (TxNeeds G) (TxFirst fb) l :=
        (hc.congr fun t hi => iff_of_false (apart t hi) not_mem_nil).isGreedy
      simp only
      generalize s.emitTransactions fb chunk.1 _ _ = e' at ret tallied' ⊢
      have includes' : Includes G s (emitted ++ [chunk.1]) e'.ret := by
        intro t
        rw [ret, mem_append, hin t, greedy.mem, rep.mem_chunk isChunk.mem,
          mem_append, mem_singleton, and_or_left]
      obtain ⟨idxs, lists, ret', hco', ho⟩ := ih _ e' tallied' includes'
        (card_sdiff_concat isChunk.mem open_ he)
      refine ⟨chunk.1 :: idxs, l :: lists, ?_, .cons isChunk.mem open_ hr ?_ hco', .cons greedy ho⟩
      · rw [ret', ret, flatten_cons, append_assoc]
      intro b hc' open' ne hr'
      have isReady' := (ready_iff (b, s.maxFallback fb b)).mpr ⟨⟨hc', rfl⟩, open', hr'⟩
      have first := ha _ isReady' fun hs => ne (congrArg Prod.fst hs)
      exact first

lemma startEmission_chunkDeps (idx : ℕ) :
  (s.startEmission fb).chunkDeps idx = openDeps G s (included G []) idx := by
  have fold : ∀ (l : List ℕ) (deps : ℕ → ℕ), l.foldl
    (fun deps child => update deps (s.chunkIdx child) (deps (s.chunkIdx child) +
      (G.getReducedParents child \ (s.setInfo (s.chunkIdx child)).transactions).card))
    deps idx = deps idx + (l.map fun t => if s.chunkIdx t = idx then
      (G.getReducedParents t \ (s.setInfo idx).transactions).card else 0).sum := by
    intro l
    induction l with
    | nil => simp
    | cons t l ih =>
      intro deps
      rw [foldl_cons, ih, map_cons, sum_cons, ← add_assoc]
      congr 1
      split_ifs with hh
      · rw [hh, update_self]
      · rw [update_of_ne (Ne.symm hh), add_zero]
  have none_ : ∀ t, included G [] t = ∅ := fun t => by simp [included]
  rw [openDeps, Finset.sum_filter]
  simp only [none_, Finset.sdiff_empty]
  rw [← sum_ascending, startEmission]
  exact (fold _ _).trans (zero_add _)

lemma tallied_start : Tallied G fb s (included G []) [] (s.startEmission fb) := by
  refine ⟨fun t _ => ?_, fun idx _ => startEmission_chunkDeps idx, by simp [startEmission],
    by simp, ?_, fun c => ?_⟩
  · simp [startEmission, included]
  · exact ((nodup_ascending _).filter _).map_on fun a _ b _ eq => congrArg Prod.fst eq
  · have listed : c ∈ (s.startEmission fb).readyChunks ↔
      ∃ idx ∈ s.chunkIdxs, (s.startEmission fb).chunkDeps idx = 0 ∧
        (idx, s.maxFallback fb idx) = c := by
      simp [startEmission, and_assoc]
    rw [listed]
    constructor
    · rintro ⟨idx, isChunk, hz, rfl⟩
      exact ⟨⟨isChunk, rfl⟩, not_mem_nil, hz⟩
    · rintro ⟨isChunk, -, hz⟩
      exact ⟨c.1, isChunk.mem, hz, Prod.ext rfl isChunk.highest.symm⟩

/-- The linearization of a forest in layers is made up of its chunks in their greedy order, each
of them in its greedy order. -/
theorem getLinearization_spec (fb : FallbackOrder G) (ha : G.isAcyclic = true) (rep : Rep G s)
  (hl : Layered (G.network positive) (chunkOf G s) level) :
  ∃ chunks lists, s.getLinearization fb = lists.flatten ∧
    IsGreedy (parts G.positions (chunkOf G s)) (ChunkNeeds G) (ChunkFirst fb) chunks ∧
    List.Forall₂ (fun C l => IsGreedy C (TxNeeds G) (TxFirst fb) l) chunks lists := by
  obtain ⟨idxs, lists, ret, hc, ho⟩ := emitChunks_spec fb ha
    rep hl s.chunkIdxs.card [] (s.startEmission fb) tallied_start
    (fun t => by simp [startEmission]) (card_le_card sdiff_subset)
  have image : s.chunkIdxs.image (fun idx => (s.setInfo idx).transactions) =
    parts G.positions (chunkOf G s) := by
    ext C
    rw [Finset.mem_image, Partition.mem_parts]
    constructor
    · rintro ⟨idx, isChunk, rfl⟩
      obtain ⟨i, mi, rfl⟩ := rep.owner idx isChunk
      exact ⟨i, mi, chunkOf_eq mi⟩
    · rintro ⟨i, mi, rfl⟩
      exact ⟨s.chunkIdx i, rep.chunk i mi, (chunkOf_eq mi).symm⟩
  refine ⟨idxs.map fun idx => (s.setInfo idx).transactions, lists, ret, ?_,
    forall₂_map_left_iff.mpr ho⟩
  rw [← image]
  exact hc.isGreedy.map (fun a isA b isB => rep.chunk_inj isA isB)
    (fun _ _ _ _ => Iff.rfl) (fun _ _ _ _ first => first)

end SpanningForestState

end ClusterLinearize
