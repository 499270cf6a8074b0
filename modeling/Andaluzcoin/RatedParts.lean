import Mathlib

/-!
# Parts of a network and their rates

The vertices of a network have a worth and a positive size, and depend on each other. A
partition is in order when every part that another one depends on has the higher rate, worth
over size. Merging a part upwards, each time with the lowest part above it, brings a partition
back in order, and what the parts are worth above any slope does not fall. Downwards it is the
same in the dual network, with the dependencies turned around and the worth negated.
-/

namespace RatedParts

open Finset

universe u

variable {V : Type u}

/-- Vertices with a worth and a size; the first vertex of a dependency comes before the
second. -/
structure Network (V : Type u) where
  vertices : Finset V
  dep : V → V → Prop
  worth : V → ℚ
  size : V → ℚ
  pos : ∀ t ∈ vertices, 0 < size t
  inside : ∀ p c, dep p c → p ∈ vertices ∧ c ∈ vertices

open Network

namespace Network

variable {D : Finset V}

/-- What a set is worth above a slope. -/
def weight (N : Network V) (slope : ℚ) (S : Finset V) : ℚ :=
  ∑ t ∈ S, (N.worth t - slope * N.size t)

def rate (N : Network V) (S : Finset V) : ℚ := (∑ t ∈ S, N.worth t) / ∑ t ∈ S, N.size t

def dual (N : Network V) : Network V where
  vertices := N.vertices
  dep p c := N.dep c p
  worth t := - N.worth t
  size := N.size
  pos := N.pos
  inside p c isDep := (N.inside c p isDep).symm

/-- The network of some of the vertices. -/
def restrict (N : Network V) (D : Finset V) (sub : D ⊆ N.vertices) : Network V where
  vertices := D
  dep p c := N.dep p c ∧ p ∈ D ∧ c ∈ D
  worth := N.worth
  size := N.size
  pos t mt := N.pos t (sub mt)
  inside _ _ isDep := isDep.2

variable {N : Network V} {S T : Finset V} {r : ℚ}

lemma weight_eq : N.weight r S = ∑ t ∈ S, N.worth t - r * ∑ t ∈ S, N.size t := by
  rw [weight, sum_sub_distrib, mul_sum]

section
variable (sub : S ⊆ N.vertices)
include sub

lemma size_pos (nonempty : S.Nonempty) : 0 < ∑ t ∈ S, N.size t :=
  sum_pos (fun t mt => N.pos t (sub mt)) nonempty

lemma size_nonneg : 0 ≤ ∑ t ∈ S, N.size t := sum_nonneg fun t mt => (N.pos t (sub mt)).le

variable (nonempty : S.Nonempty)
include nonempty

lemma weight_pos : 0 < N.weight r S ↔ r < N.rate S := by
  rw [weight_eq, rate, lt_div_iff₀ (size_pos sub nonempty), sub_pos]

lemma weight_neg : N.weight r S < 0 ↔ N.rate S < r := by
  rw [weight_eq, rate, div_lt_iff₀ (size_pos sub nonempty), sub_neg]

lemma weight_nonneg : 0 ≤ N.weight r S ↔ r ≤ N.rate S := by
  rw [← not_lt, weight_neg sub nonempty, not_lt]

lemma weight_nonpos : N.weight r S ≤ 0 ↔ N.rate S ≤ r := by
  rw [← not_lt, weight_pos sub nonempty, not_lt]

lemma weight_eq_zero : N.weight r S = 0 ↔ N.rate S = r := by
  rw [weight_eq, rate, div_eq_iff (size_pos sub nonempty).ne', sub_eq_zero]

lemma weight_rate : N.weight (N.rate S) S = 0 := (weight_eq_zero sub nonempty).mpr rfl

end

@[simp]
lemma weight_empty : N.weight r ∅ = 0 := rfl

/-- A higher slope takes away its part of the size. -/
lemma weight_slope (s : ℚ) : N.weight r S = N.weight s S + (s - r) * ∑ t ∈ S, N.size t := by
  rw [weight_eq, weight_eq]
  ring

lemma dual_weight : N.dual.weight r S = - N.weight (-r) S := by
  simp only [weight, dual, ← sum_neg_distrib]
  refine sum_congr rfl fun t _ => ?_
  ring

lemma dual_rate : N.dual.rate S = - N.rate S := by
  simp only [rate, dual, sum_neg_distrib, neg_div]

lemma restrict_weight {sub : D ⊆ N.vertices} : (N.restrict D sub).weight r S = N.weight r S := rfl

variable [DecidableEq V]

lemma weight_union (disjoint : Disjoint S T) :
  N.weight r (S ∪ T) = N.weight r S + N.weight r T := sum_union disjoint

lemma weight_sdiff (sub : T ⊆ S) : N.weight r (S \ T) = N.weight r S - N.weight r T :=
  eq_sub_of_add_eq (sum_sdiff sub)

lemma le_rate_union (sub : S ⊆ N.vertices) (sub' : T ⊆ N.vertices) (nonempty : S.Nonempty)
  (nonempty' : T.Nonempty) (disjoint : Disjoint S T) (le : r ≤ N.rate S)
  (le' : r ≤ N.rate T) : r ≤ N.rate (S ∪ T) := by
  rw [← weight_nonneg (union_subset sub sub') (nonempty.mono subset_union_left),
    weight_union disjoint]
  exact add_nonneg ((weight_nonneg sub nonempty).mpr le) ((weight_nonneg sub' nonempty').mpr le')

end Network

structure Partition (vertices : Finset V) (part : V → Finset V) : Prop where
  self : ∀ t ∈ vertices, t ∈ part t
  sub : ∀ t ∈ vertices, part t ⊆ vertices
  same : ∀ t ∈ vertices, ∀ u ∈ part t, part u = part t

namespace Partition

variable {vertices : Finset V} {part : V → Finset V}

variable (hp : Partition vertices part) {t u : V}
include hp

lemma congr {part' : V → Finset V} (hs : ∀ t ∈ vertices, part' t = part t) :
  Partition vertices part' := by
  refine ⟨fun t mt => ?_, fun t mt => ?_, fun t mt u inT => ?_⟩
  · rw [hs t mt]
    exact hp.self t mt
  · rw [hs t mt]
    exact hp.sub t mt
  · rw [hs t mt] at inT ⊢
    rw [hs u (hp.sub t mt inT)]
    exact hp.same t mt u inT

variable (mt : t ∈ vertices)
include mt

lemma nonempty : (part t).Nonempty := ⟨t, hp.self t mt⟩

lemma part_eq {v : V} (mv : v ∈ vertices) (inT : u ∈ part t) (inV : u ∈ part v) : part t = part v :=
  (hp.same t mt u inT).symm.trans (hp.same v mv u inV)

lemma mem_iff (mu : u ∈ vertices) : u ∈ part t ↔ part u = part t := by
  constructor
  · exact hp.same t mt u
  · intro hs
    rw [← hs]
    exact hp.self u mu

lemma disjoint (mu : u ∈ vertices) (ne : part t ≠ part u) : Disjoint (part t) (part u) := by
  rw [disjoint_left]
  exact fun v inT inU => ne (hp.part_eq mt mu inT inU)

end Partition

variable [DecidableEq V]

def parts (vertices : Finset V) (part : V → Finset V) : Finset (Finset V) := vertices.image part

/-- Two parts made one. -/
def merge (part : V → Finset V) (p c t : V) : Finset V :=
  if t ∈ part p ∪ part c then part p ∪ part c else part t

/-- A part cut into a set and the rest of it. -/
def split (part : V → Finset V) (x : V) (T : Finset V) (t : V) : Finset V :=
  if t ∈ T then T else if t ∈ part x then part x \ T else part t

namespace Partition

variable {vertices : Finset V} {part : V → Finset V} {p c x : V} {t : V}

lemma mem_parts {S : Finset V} : S ∈ parts vertices part ↔ ∃ t ∈ vertices, part t = S := by
  simp [parts]

lemma merge_of_mem (hi : t ∈ part p ∪ part c) : merge part p c t = part p ∪ part c := if_pos hi

lemma merge_of_notMem (ho : t ∉ part p ∪ part c) : merge part p c t = part t := if_neg ho

lemma split_of_mem {T : Finset V} (hi : t ∈ T) : split part x T t = T := if_pos hi

lemma split_of_rest {T : Finset V} (hr : t ∈ part x \ T) : split part x T t = part x \ T := by
  obtain ⟨inX, notT⟩ := mem_sdiff.mp hr
  rw [split, if_neg notT, if_pos inX]

lemma split_away {T : Finset V} (sub : T ⊆ part x) (ho : t ∉ part x) :
  split part x T t = part t := by
  rw [split, if_neg (fun inT => ho (sub inT)), if_neg ho]

lemma merge_comm : merge part p c = merge part c p := by
  funext t
  rw [merge, merge, union_comm]

variable (hp : Partition vertices part) {T : Finset V}
include hp

section
variable (mp : p ∈ vertices)
include mp

variable (mc : c ∈ vertices)
include mc

lemma mem_union_iff {t : V} (mt : t ∈ vertices) :
  t ∈ part p ∪ part c ↔ part t = part p ∨ part t = part c := by
  rw [mem_union, hp.mem_iff mp mt, hp.mem_iff mc mt]

lemma merge_partition : Partition vertices (merge part p c) := by
  constructor
  · intro t mt
    by_cases hi : t ∈ part p ∪ part c
    · rwa [merge_of_mem hi]
    · rw [merge_of_notMem hi]
      exact hp.self t mt
  · intro t mt
    by_cases hi : t ∈ part p ∪ part c
    · rw [merge_of_mem hi]
      exact union_subset (hp.sub p mp) (hp.sub c mc)
    · rw [merge_of_notMem hi]
      exact hp.sub t mt
  · intro t mt u inT
    by_cases hi : t ∈ part p ∪ part c
    · rw [merge_of_mem hi] at inT ⊢
      rw [merge_of_mem inT]
    rw [merge_of_notMem hi] at inT ⊢
    have mu := hp.sub t mt inT
    have same := hp.same t mt u inT
    rw [merge_of_notMem, same]
    rw [hp.mem_union_iff mp mc mu, same, ← hp.mem_union_iff mp mc mt]
    exact hi

lemma merge_parts : parts vertices (merge part p c) =
    insert (part p ∪ part c) (((parts vertices part).erase (part p)).erase (part c)) := by
  ext S
  simp only [mem_insert, mem_erase, mem_parts]
  constructor
  · rintro ⟨t, mt, rfl⟩
    by_cases hi : t ∈ part p ∪ part c
    · exact .inl (merge_of_mem hi)
    · rw [merge_of_notMem hi]
      rw [hp.mem_union_iff mp mc mt, not_or] at hi
      exact .inr ⟨hi.2, hi.1, t, mt, rfl⟩
  · rintro (rfl | ⟨notC, notP, t, mt, rfl⟩)
    · exact ⟨p, mp, merge_of_mem (mem_union_left _ (hp.self p mp))⟩
    · refine ⟨t, mt, merge_of_notMem ?_⟩
      rw [hp.mem_union_iff mp mc mt, not_or]
      exact ⟨notP, notC⟩

lemma sum_merge (ne : part p ≠ part c) (g : Finset V → ℚ) :
  ∑ S ∈ parts vertices (merge part p c), g S =
    ∑ S ∈ parts vertices part, g S - g (part p) - g (part c) + g (part p ∪ part c) := by
  have inP : part p ∈ parts vertices part := mem_parts.mpr ⟨p, mp, rfl⟩
  have inC := mem_erase.mpr ⟨ne.symm, mem_parts.mpr ⟨c, mc, rfl⟩⟩
  have fresh : part p ∪ part c ∉ ((parts vertices part).erase (part p)).erase (part c) := by
    simp only [mem_erase, mem_parts]
    rintro ⟨notC, -, t, mt, eq⟩
    have inT : c ∈ part t := by
      rw [eq]
      exact mem_union_right _ (hp.self c mc)
    exact notC (eq ▸ (hp.part_eq mt mc inT (hp.self c mc)))
  rw [hp.merge_parts mp mc, sum_insert fresh, ← add_sum_erase _ g inP, ← add_sum_erase _ g inC]
  ring

end

section
variable (mx : x ∈ vertices)
include mx

variable (sub : T ⊆ part x)
include sub

lemma split_partition : Partition vertices (split part x T) := by
  have notIn : ∀ t ∈ vertices, t ∉ part x → ∀ u ∈ part t, u ∉ part x := by
    intro t mt out u inT inX
    exact out ((hp.mem_iff mx mt).mpr (hp.part_eq mt mx inT inX))
  constructor
  · intro t mt
    rw [split]
    split_ifs with inT inX
    · exact inT
    · exact mem_sdiff.mpr ⟨inX, inT⟩
    · exact hp.self t mt
  · intro t mt
    rw [split]
    split_ifs
    · exact sub.trans (hp.sub x mx)
    · exact sdiff_subset.trans (hp.sub x mx)
    · exact hp.sub t mt
  · intro t mt u hi
    rw [split] at hi
    split_ifs at hi with inT inX
    · rw [split_of_mem hi, split_of_mem inT]
    · rw [split_of_rest hi, split_of_rest (mem_sdiff.mpr ⟨inX, inT⟩)]
    · rw [split_away sub (notIn t mt inX u hi), split_away sub inX]
      exact hp.same t mt u hi

lemma split_parts (nonempty : T.Nonempty) (proper : (part x \ T).Nonempty) :
  parts vertices (split part x T) =
    insert T (insert (part x \ T) ((parts vertices part).erase (part x))) := by
  ext S
  simp only [mem_insert, mem_erase, mem_parts]
  constructor
  · rintro ⟨t, mt, rfl⟩
    rw [split]
    split_ifs with inT inX
    · exact .inl rfl
    · exact .inr (.inl rfl)
    · refine .inr (.inr ⟨fun eq => inX ?_, t, mt, rfl⟩)
      rw [← eq]
      exact hp.self t mt
  rintro (rfl | rfl | ⟨ne, t, mt, rfl⟩)
  · obtain ⟨t, inT⟩ := nonempty
    exact ⟨t, hp.sub x mx (sub inT), split_of_mem inT⟩
  · obtain ⟨t, hi⟩ := proper
    exact ⟨t, hp.sub x mx (mem_sdiff.mp hi).1, split_of_rest hi⟩
  · exact ⟨t, mt, split_away sub fun inX => ne (hp.same x mx t inX)⟩

lemma sum_split (nonempty : T.Nonempty) (proper : (part x \ T).Nonempty) (g : Finset V → ℚ) :
  ∑ S ∈ parts vertices (split part x T), g S =
    ∑ S ∈ parts vertices part, g S - g (part x) + g T + g (part x \ T) := by
  have inX : part x ∈ parts vertices part := mem_parts.mpr ⟨x, mx, rfl⟩
  -- a part other than the divided one holds none of its vertices
  have foreign : ∀ S ∈ (parts vertices part).erase (part x), ∀ t ∈ S, t ∉ part x := by
    intro S mS t inS inX
    obtain ⟨ne, u, mu, rfl⟩ := by
      simpa only [mem_erase, mem_parts] using mS
    exact ne (hp.part_eq mu mx inS inX)
  have freshRest : part x \ T ∉ (parts vertices part).erase (part x) := by
    intro mS
    obtain ⟨t, hi⟩ := proper
    exact foreign _ mS t hi (mem_sdiff.mp hi).1
  have fresh : T ∉ insert (part x \ T) ((parts vertices part).erase (part x)) := by
    obtain ⟨t, inT⟩ := nonempty
    rw [mem_insert]
    rintro (eq | mS)
    · rw [eq] at inT
      exact (mem_sdiff.mp inT).2 (eq ▸ inT)
    · exact foreign _ mS t inT (sub inT)
  rw [hp.split_parts mx sub nonempty proper, sum_insert fresh,
    sum_insert freshRest, ← add_sum_erase _ g inX]
  ring

lemma merge_split {u v : V} (hr : u ∈ part x \ T) (inT : v ∈ T) :
  merge (split part x T) u v = part := by
  funext t
  rw [merge, split_of_rest hr, split_of_mem inT, sdiff_union_of_subset sub]
  split_ifs with hi
  · exact (hp.same x mx t hi).symm
  · exact split_away sub hi

end

lemma sum_parts (g : V → ℚ) : ∑ S ∈ parts vertices part, ∑ t ∈ S, g t = ∑ t ∈ vertices, g t := by
  have cover : vertices = (parts vertices part).biUnion id := by
    ext t
    simp only [mem_biUnion, id, mem_parts]
    constructor
    · exact fun mt => ⟨part t, ⟨t, mt, rfl⟩, hp.self t mt⟩
    · rintro ⟨S, ⟨u, mu, rfl⟩, inS⟩
      exact hp.sub u mu inS
  conv_rhs => rw [cover]
  rw [sum_biUnion]
  · simp only [id]
  intro S mS T mT ne
  obtain ⟨t, mt, rfl⟩ := mem_parts.mp mS
  obtain ⟨u, mu, rfl⟩ := mem_parts.mp mT
  exact hp.disjoint mt mu ne

end Partition

/-- What the parts are worth that are worth something above the slope. -/
def Network.potential (N : Network V) (part : V → Finset V) (r : ℚ) : ℚ :=
  ∑ S ∈ parts N.vertices part, max 0 (N.weight r S)

/-- Every part that another one depends on has the higher rate. -/
def Network.Ordered (N : Network V) (part : V → Finset V) : Prop :=
  ∀ p c, N.dep p c → part p ≠ part c → N.rate (part c) < N.rate (part p)

variable {N : Network V} {part : V → Finset V}

omit [DecidableEq V] in
lemma Network.Ordered.dual (ordered : N.Ordered part) : N.dual.Ordered part := by
  intro p c hd ne
  rw [dual_rate, dual_rate, neg_lt_neg_iff]
  exact ordered c p hd ne.symm

omit [DecidableEq V] in
lemma Network.Ordered.of_dual (ordered : N.dual.Ordered part) : N.Ordered part := by
  intro p c hd ne
  have turned := ordered c p hd ne.symm
  rwa [dual_rate, dual_rate, neg_lt_neg_iff] at turned

lemma Network.dual_potential (hp : Partition N.vertices part) (r : ℚ) :
  N.dual.potential part r = N.potential part (-r) - N.weight (-r) N.vertices := by
  have total : N.weight (-r) N.vertices = ∑ S ∈ parts N.vertices part, N.weight (-r) S :=
    (hp.sum_parts _).symm
  rw [total, Network.potential, Network.potential, ← sum_sub_distrib]
  refine sum_congr rfl fun S _ => ?_
  rw [dual_weight]
  rcases le_total 0 (N.weight (-r) S) with up | down
  · rw [max_eq_right up, max_eq_left (neg_nonpos.mpr up), sub_self]
  · rw [max_eq_left down, max_eq_right (neg_nonneg.mpr down), zero_sub]

/-- The potential is at least what all vertices are worth. -/
lemma Network.weight_le_potential (hp : Partition N.vertices part) (r : ℚ) :
  N.weight r N.vertices ≤ N.potential part r := by
  have total : N.weight r N.vertices = ∑ S ∈ parts N.vertices part, N.weight r S :=
    (hp.sum_parts _).symm
  rw [total]
  exact sum_le_sum fun S _ => le_max_right _ _

/-- What the two parts of a divided one are worth is not less than what it was worth. -/
lemma Network.potential_le_split
  (hp : Partition N.vertices part) {x : V} (mx : x ∈ N.vertices) {T : Finset V}
  (sub : T ⊆ part x) (nonempty : T.Nonempty) (proper : (part x \ T).Nonempty) (r : ℚ) :
  N.potential part r ≤ N.potential (split part x T) r := by
  have whole : N.weight r (part x) = N.weight r T + N.weight r (part x \ T) := by
    rw [weight_sdiff sub]
    ring
  have sum : max 0 (N.weight r (part x)) ≤
    max 0 (N.weight r T) + max 0 (N.weight r (part x \ T)) := by
    rw [whole]
    refine max_le (add_nonneg (le_max_left _ _) (le_max_left _ _)) ?_
    exact add_le_add (le_max_right _ _) (le_max_right _ _)
  rw [potential, potential, hp.sum_split mx sub nonempty proper]
  linarith

/-- A part on its way up. What it depends on is not below the mark, and what depends on it is
below it; the other parts are in order, but for one that may lie too high, between the parts
around it. -/
structure Rising (N : Network V) (part : V → Finset V) (x : V) (B : Finset V)
  (low mark : ℚ) : Prop where
  partition : Partition N.vertices part
  memX : x ∈ N.vertices
  base : low < mark
  reaches : mark ≤ N.rate (part x)
  above : ∀ p c, N.dep p c → part c = part x → part p ≠ part x → mark ≤ N.rate (part p)
  below : ∀ p c, N.dep p c → part p = part x → part c ≠ part x → N.rate (part c) < mark
  settled : ∀ p c, N.dep p c → part p ≠ part c → part p ≠ part x → part c ≠ part x → p ∉ B →
    N.rate (part c) < N.rate (part p)
  whole : ∀ t ∈ B, t ∈ N.vertices ∧ part t = B
  other : x ∉ B
  under : ∀ p c, N.dep p c → p ∈ B → c ∉ B → N.rate (part c) < low
  over_ : ∀ p c, N.dep p c → c ∈ B → p ∉ B → low < N.rate (part p)

/-- The potential is kept, also without the part on its way up above the mark, and with all of
the part left behind below it. -/
structure Holding (N : Network V) (part : V → Finset V) (x : V) (B : Finset V) (low mark : ℚ)
  (start : ℚ → ℚ) : Prop where
  keeps : ∀ r, start r ≤ N.potential part r
  high : ∀ r, mark ≤ r → start r ≤ N.potential part r - max 0 (N.weight r (part x))
  deep : ∀ r, r ≤ low →
    start r ≤ N.potential part r - max 0 (N.weight r B) + N.weight r B

namespace Rising

open RatedParts.Partition

variable {x p c : V} {B : Finset V} {low mark : ℚ}

/-- The part to merge with: the lowest one that the rising part depends on. -/
structure Lowest (N : Network V) (part : V → Finset V) (x p c : V) : Prop where
  isDep : N.dep p c
  here : part c = part x
  ne : part p ≠ part x
  le : N.rate (part p) ≤ N.rate (part x)
  least : ∀ p' c', N.dep p' c' → part c' = part x → part p' ≠ part x →
    N.rate (part p) ≤ N.rate (part p')

omit [DecidableEq V] in
lemma Lowest.congr {q d : V} (hl : Lowest N part x p c) (isDep : N.dep q d)
  (here : part d = part x) (same : part q = part p) : Lowest N part x q d :=
  ⟨isDep, here, same ▸ hl.ne, same ▸ hl.le, same ▸ hl.least⟩

omit [DecidableEq V] in
/-- The part left behind is not one that the rising part depends on. -/
lemma notMem (hr : Rising N part x B low mark) (isDep : N.dep p c)
  (hh : part c = part x) : p ∉ B := by
  intro inB
  have notIn : c ∉ B := by
    intro inC
    have same : part x = B := hh ▸ (hr.whole c inC).2
    exact hr.other (same ▸ hr.partition.self x hr.memX)
  have lower := hr.under p c isDep inB notIn
  rw [hh] at lower
  exact absurd (hr.base.trans_le hr.reaches) (not_lt.mpr lower.le)

omit [DecidableEq V] in
lemma mark_le (hr : Rising N part x B low mark) (hl : Lowest N part x p c) :
  mark ≤ N.rate (part p) := hr.above p c hl.isDep hl.here hl.ne

section
variable (hr : Rising N part x B low mark) {b : V} {start : ℚ → ℚ}
include hr

section
variable (hl : Lowest N part x p c)
include hl

lemma left_notMem {t : V} (inB : t ∈ B) : t ∉ part p ∪ part c := by
  obtain ⟨mt, hs⟩ := hr.whole t inB
  have mem := N.inside p c hl.isDep
  rw [hr.partition.mem_union_iff mem.1 mem.2 mt, hs]
  rintro (eq | eq)
  · exact hr.notMem hl.isDep hl.here (eq ▸ hr.partition.self p mem.1)
  · rw [hl.here] at eq
    exact hr.other (eq ▸ hr.partition.self x hr.memX)

lemma mark_le_union : N.rate (part p) ≤ N.rate (part p ∪ part c) := by
  have mem := N.inside p c hl.isDep
  have partition := hr.partition
  refine le_rate_union (partition.sub p mem.1) (partition.sub c mem.2)
    (partition.nonempty mem.1) (partition.nonempty mem.2) ?_ (le_refl _) ?_
  · exact partition.disjoint mem.1 mem.2 (hl.here ▸ hl.ne)
  · rw [hl.here]
    exact hl.le

/-- Merging with the lowest part above raises the mark to it. -/
lemma step : Rising N (merge part p c) x B low (N.rate (part p)) := by
  obtain ⟨mp, mc⟩ := N.inside p c hl.isDep
  have partition := hr.partition
  have higher := hr.mark_le hl
  have inside : ∀ {t}, t ∈ N.vertices →
    (t ∈ part p ∪ part c ↔ part t = part p ∨ part t = part x) := by
    intro t mt
    rw [partition.mem_union_iff mp mc mt, hl.here]
  have atX := merge_of_mem ((inside hr.memX).mpr (.inr rfl))
  have joined : ∀ {t}, t ∈ N.vertices →
    (merge part p c t = part p ∪ part c ↔ t ∈ part p ∪ part c) := by
    intro t mt
    constructor
    · intro eq
      rw [← eq]
      exact (partition.merge_partition mp mc).self t mt
    · exact merge_of_mem
  have notB : p ∉ B := hr.notMem hl.isDep hl.here
  -- no vertex of the part merged with is left behind
  have notB' : ∀ {t}, t ∈ N.vertices → part t = part p → t ∉ B := by
    intro t mt hs inB
    exact hr.left_notMem hl inB ((inside mt).mpr (.inl hs))
  constructor
  · exact partition.merge_partition mp mc
  · exact hr.memX
  · exact hr.base.trans_le higher
  · rw [atX]
    exact hr.mark_le_union hl
  · intro p' c' hd hh ne
    obtain ⟨mp', mc'⟩ := N.inside p' c' hd
    rw [atX, joined mc', inside mc'] at hh
    rw [atX, ne_eq, joined mp'] at ne
    rw [merge_of_notMem ne]
    rw [inside mp', not_or] at ne
    rcases hh with atP | hh
    · by_cases inB : p' ∈ B
      · have lower := hr.under p' c' hd inB (notB' mc' atP)
        rw [atP] at lower
        exact absurd (hr.base.trans_le higher) (not_lt.mpr lower.le)
      · have strict := hr.settled p' c' hd (atP ▸ ne.1) ne.2 (atP ▸ hl.ne) inB
        exact (atP ▸ strict).le
    · exact hl.least p' c' hd hh ne.2
  · intro p' c' hd hh ne
    obtain ⟨mp', mc'⟩ := N.inside p' c' hd
    rw [atX, joined mp', inside mp'] at hh
    rw [atX, ne_eq, joined mc'] at ne
    rw [merge_of_notMem ne]
    rw [inside mc', not_or] at ne
    rcases hh with atP | hh
    · have strict := hr.settled p' c' hd (atP ▸ Ne.symm ne.1) (atP ▸ hl.ne) ne.2 (notB' mp' atP)
      exact atP ▸ strict
    · exact (hr.below p' c' hd hh ne.2).trans_le higher
  · intro p' c' hd ne neP neC inB
    obtain ⟨mp', mc'⟩ := N.inside p' c' hd
    rw [atX, ne_eq, joined mp'] at neP
    rw [atX, ne_eq, joined mc'] at neC
    rw [merge_of_notMem neP, merge_of_notMem neC] at ne ⊢
    rw [inside mp', not_or] at neP
    rw [inside mc', not_or] at neC
    exact hr.settled p' c' hd ne neP.2 neC.2 inB
  · intro t inB
    obtain ⟨mt, hs⟩ := hr.whole t inB
    exact ⟨mt, by rw [merge_of_notMem (hr.left_notMem hl inB), hs]⟩
  · exact hr.other
  · intro p' c' hd inB hi
    have mc' := (N.inside p' c' hd).2
    have lower := hr.under p' c' hd inB hi
    rw [merge_of_notMem]
    · exact lower
    rw [inside mc']
    rintro (eq | eq)
    · rw [eq] at lower
      exact absurd (hr.base.trans_le higher) (not_lt.mpr lower.le)
    · rw [eq] at lower
      exact absurd (hr.base.trans_le hr.reaches) (not_lt.mpr lower.le)
  · intro p' c' hd inB hi
    by_cases isIn : p' ∈ part p ∪ part c
    · rw [merge_of_mem isIn]
      exact (hr.base.trans_le higher).trans_le (hr.mark_le_union hl)
    · rw [merge_of_notMem isIn]
      exact hr.over_ p' c' hd inB hi

/-- A merge on the way up keeps the potential. -/
lemma step_holding (holding : Holding N part x B low mark start) :
  Holding N (merge part p c) x B low (N.rate (part p)) start := by
  obtain ⟨mp, mc⟩ := N.inside p c hl.isDep
  have partition := hr.partition
  have higher := hr.mark_le hl
  have ne := hl.here ▸ hl.ne
  have subP := partition.sub p mp
  have subC := partition.sub c mc
  have atX : merge part p c x = part p ∪ part c := by
    apply merge_of_mem
    rw [partition.mem_union_iff mp mc hr.memX]
    exact .inr hl.here.symm
  have potential : ∀ r, N.potential (merge part p c) r = N.potential part r -
    max 0 (N.weight r (part p)) - max 0 (N.weight r (part x)) +
      max 0 (N.weight r (part p ∪ part c)) := by
    intro r
    rw [← hl.here]
    exact partition.sum_merge mp mc ne fun S => max 0 (N.weight r S)
  have union : ∀ r, N.weight r (part p ∪ part c) = N.weight r (part p) + N.weight r (part x) := by
    intro r
    rw [weight_union (partition.disjoint mp mc ne), hl.here]
  -- below the rate of the part merged with, both parts count in full
  have same : ∀ r, r < N.rate (part p) → N.potential (merge part p c) r = N.potential part r := by
    intro r hs
    have up := (weight_pos subP (partition.nonempty mp)).mpr hs
    have up' : 0 < N.weight r (part x) := by
      rw [← hl.here]
      refine (weight_pos subC (partition.nonempty mc)).mpr ?_
      rw [hl.here]
      exact hs.trans_le hl.le
    rw [potential, union, max_eq_right up.le, max_eq_right up'.le, max_eq_right (by linarith)]
    ring
  -- from there on, the part merged with counts nothing
  have dropped : ∀ r, N.rate (part p) ≤ r →
    start r ≤ N.potential (merge part p c) r - max 0 (N.weight r (part p ∪ part c)) := by
    intro r large
    have down := (weight_nonpos subP (partition.nonempty mp)).mpr large
    have kept := holding.high r (higher.trans large)
    rw [potential, max_eq_left down]
    linarith
  constructor
  · intro r
    rcases lt_or_ge r (N.rate (part p)) with hs | large
    · rw [same r hs]
      exact holding.keeps r
    · have kept := dropped r large
      have nonneg := le_max_left 0 (N.weight r (part p ∪ part c))
      linarith
  · intro r large
    rw [atX]
    exact dropped r large
  · intro r hs
    rw [same r (hs.trans_lt (hr.base.trans_le higher))]
    exact holding.deep r hs

end

section
variable (done : ∀ p c, N.dep p c → part c = part x → part p ≠ part x → N.rate (part x) < N.rate (part p))
include done

/-- At its place, the part is in order with all others. -/
lemma ordered : ∀ p c, N.dep p c → part p ≠ part c → p ∉ B → N.rate (part c) < N.rate (part p) := by
  intro p c hd ne hi
  by_cases atC : part c = part x
  · rw [atC] at ne ⊢
    exact done p c hd atC ne
  by_cases atP : part p = part x
  · rw [atP] at ne ⊢
    exact (hr.below p c hd atP (Ne.symm ne)).trans_le hr.reaches
  · exact hr.settled p c hd ne atP atC hi

/-- The part left behind is then the one to move, down. -/
lemma turn (inB : b ∈ B) (lower : N.rate B ≤ low) : Rising N.dual part b ∅ (-low - 1) (-low) := by
  obtain ⟨mb, hs⟩ := hr.whole b inB
  have inOrder := hr.ordered done
  have partition := hr.partition
  have notIn : ∀ {t}, part t ≠ part b → t ∉ B := by
    intro t ne inT
    exact ne ((hr.whole t inT).2.trans hs.symm)
  have isIn : ∀ {t}, t ∈ N.vertices → part t = part b → t ∈ B := by
    intro t mt eq
    rw [← hs, ← eq]
    exact partition.self t mt
  constructor
  · exact partition
  · exact mb
  · linarith
  · rw [dual_rate, hs]
    exact neg_le_neg lower
  · intro c p hd hh ne
    rw [dual_rate]
    have mem := N.inside p c hd
    exact neg_le_neg (hr.under p c hd (isIn mem.1 hh) (notIn ne)).le
  · intro c p hd hh ne
    rw [dual_rate]
    have mem := N.inside p c hd
    exact neg_lt_neg (hr.over_ p c hd (isIn mem.2 hh) (notIn ne))
  · intro c p hd ne neC neP _
    rw [dual_rate, dual_rate]
    exact neg_lt_neg (inOrder p c hd (Ne.symm ne) (notIn neP))
  all_goals simp

end

lemma turn_holding (holding : Holding N part x B low mark start) (inB : b ∈ B) :
  Holding N.dual part b ∅ (-low - 1) (-low) (fun r => start (-r) - N.weight (-r) N.vertices) := by
  have partition := hr.partition
  have same := (hr.whole b inB).2
  have keeps : ∀ r, start (-r) - N.weight (-r) N.vertices ≤ N.dual.potential part r := by
    intro r
    rw [dual_potential partition]
    have kept := holding.keeps (-r)
    linarith
  constructor
  · exact keeps
  · intro r large
    have deep := holding.deep (-r) (by linarith)
    rw [dual_potential partition, dual_weight, same]
    rcases le_total 0 (N.weight (-r) B) with up | down
    · rw [max_eq_right up] at deep
      rw [max_eq_left (neg_nonpos.mpr up)]
      linarith
    · rw [max_eq_left down] at deep
      rw [max_eq_right (neg_nonneg.mpr down)]
      linarith
  · intro r _
    have kept := keeps r
    simpa using kept

end

section
variable (hp : Partition N.vertices part) (mx : x ∈ N.vertices)
include hp mx

section
variable (ho : N.Ordered part) (hd : N.dep p c)
include ho hd
omit [DecidableEq V]

/-- A vertex that a part depends on is in a steeper part. -/
lemma parent_above (inX : c ∈ part x) (out : p ∉ part x) : N.rate (part x) < N.rate (part p) := by
  have mp := (N.inside p c hd).1
  have same := hp.same x mx c inX
  rw [← same]
  refine ho p c hd fun eq => out ?_
  rw [hp.mem_iff mx mp, eq, same]

lemma child_below (inX : p ∈ part x) (out : c ∉ part x) : N.rate (part c) < N.rate (part x) := by
  have mc := (N.inside p c hd).2
  have same := hp.same x mx p inX
  rw [← same]
  refine ho p c hd fun eq => out ?_
  rw [hp.mem_iff mx mc, ← eq, same]

end

variable {T : Finset V} (inT : x ∈ T) (sub : T ⊆ part x)
include sub

lemma rest_below (proper : (part x \ T).Nonempty) (nonempty : T.Nonempty)
  (hst : N.rate (part x) < N.rate T) : N.rate (part x \ T) < N.rate (part x) := by
  rw [← weight_neg (sdiff_subset.trans (hp.sub x mx)) proper]
  have up := (weight_pos (sub.trans (hp.sub x mx)) nonempty).mpr hst
  have zero := weight_rate (hp.sub x mx) (hp.nonempty mx)
  rw [weight_sdiff sub]
  linarith

include inT

/-- Cutting a part keeps the potential, in all the ways that its way up needs. -/
lemma holding_of_split (proper : (part x \ T).Nonempty) (base : N.rate (part x) < mark) :
  Holding N (split part x T) x (part x \ T) (N.rate (part x)) mark (N.potential part) := by
  have potential : ∀ r, N.potential (split part x T) r = N.potential part r -
    max 0 (N.weight r (part x)) + max 0 (N.weight r T) + max 0 (N.weight r (part x \ T)) :=
    fun r => hp.sum_split mx sub ⟨x, inT⟩ proper fun S => max 0 (N.weight r S)
  constructor
  · exact potential_le_split hp mx sub ⟨x, inT⟩ proper
  · intro r large
    have down := (weight_nonpos (hp.sub x mx) (hp.nonempty mx)).mpr (base.trans_le large).le
    have nonneg := le_max_left 0 (N.weight r (part x \ T))
    rw [potential, split_of_mem inT, max_eq_left down]
    linarith
  · intro r hs
    have up := (weight_nonneg (hp.sub x mx) (hp.nonempty mx)).mpr hs
    have le := le_max_right 0 (N.weight r T)
    rw [potential, max_eq_right up, weight_sdiff sub]
    linarith

/-- Cutting a part of an ordered partition into a steeper set and the rest starts the set on its
way up, unless the set depends on the rest. -/
lemma of_split (ho : N.Ordered part) (hst : N.rate (part x) < N.rate T)
  (free : ∀ p c, N.dep p c → p ∈ part x \ T → c ∉ T) :
  ∃ mark, Rising N (split part x T) x (part x \ T) (N.rate (part x)) mark ∧
    Holding N (split part x T) x (part x \ T) (N.rate (part x)) mark (N.potential part) ∧
    N.rate (part x \ T) ≤ N.rate (part x) := by
  have proper : (part x \ T).Nonempty := by
    rw [sdiff_nonempty]
    intro sub'
    rw [Finset.Subset.antisymm sub sub'] at hst
    exact lt_irrefl _ hst
  have flat := rest_below hp mx sub proper ⟨x, inT⟩ hst
  -- the mark is the lowest rate above that of the part
  let rates := (N.vertices.image fun t => N.rate (split part x T t)).filter (N.rate (part x) < ·)
  have isRate : ∀ {t}, t ∈ N.vertices → N.rate (part x) < N.rate (split part x T t) →
    N.rate (split part x T t) ∈ rates := fun mt hhi =>
    mem_filter.mpr ⟨mem_image_of_mem _ mt, hhi⟩
  have top : N.rate T ∈ rates := by
    have := isRate mx
    rw [split_of_mem inT] at this
    exact this hst
  have upper : ∀ {p}, p ∈ N.vertices → p ∉ part x → N.rate (part x) < N.rate (part p) →
    rates.min' ⟨_, top⟩ ≤ N.rate (part p) := by
    intro p mp out hhi
    have := isRate mp
    rw [split_away sub out] at this
    exact min'_le _ _ (this hhi)
  have base : N.rate (part x) < rates.min' ⟨_, top⟩ := (mem_filter.mp (min'_mem rates ⟨_, top⟩)).2
  have isT : ∀ {t}, t ∈ N.vertices → split part x T t = T → t ∈ T := by
    intro t mt eq
    rw [← eq]
    exact (hp.split_partition mx sub).self t mt
  refine ⟨rates.min' ⟨_, top⟩, ?_, ?_, flat.le⟩
  · constructor
    · exact hp.split_partition mx sub
    · exact mx
    · exact base
    · rw [split_of_mem inT]
      exact min'_le _ _ top
    · intro p c hd hh ne
      obtain ⟨mp, mc⟩ := N.inside p c hd
      rw [split_of_mem inT] at hh ne
      have inT' := isT mc hh
      have notT : p ∉ T := fun inT => ne (split_of_mem inT)
      have out : p ∉ part x := fun inX =>
        free p c hd (mem_sdiff.mpr ⟨inX, notT⟩) inT'
      rw [split_away sub out]
      exact upper mp out (parent_above hp mx ho hd (sub inT') out)
    · intro p c hd hh ne
      obtain ⟨mp, mc⟩ := N.inside p c hd
      rw [split_of_mem inT] at hh ne
      have notT : c ∉ T := fun inT => ne (split_of_mem inT)
      by_cases inX : c ∈ part x
      · rw [split_of_rest (mem_sdiff.mpr ⟨inX, notT⟩)]
        exact flat.trans base
      · rw [split_away sub inX]
        exact (child_below hp mx ho hd (sub (isT mp hh)) inX).trans base
    · intro p c hd ne neP neC notRest
      rw [split_of_mem inT] at neP neC
      have notP : p ∉ T := fun inT => neP (split_of_mem inT)
      have notC : c ∉ T := fun inT => neC (split_of_mem inT)
      have outP : p ∉ part x := fun inX => notRest (mem_sdiff.mpr ⟨inX, notP⟩)
      rw [split_away sub outP] at ne ⊢
      by_cases inX : c ∈ part x
      · rw [split_of_rest (mem_sdiff.mpr ⟨inX, notC⟩)]
        exact flat.trans (parent_above hp mx ho hd inX outP)
      · rw [split_away sub inX] at ne ⊢
        exact ho p c hd ne
    · intro t hr
      exact ⟨hp.sub x mx (mem_sdiff.mp hr).1, split_of_rest hr⟩
    · exact fun hr => (mem_sdiff.mp hr).2 inT
    · intro p c hd hr notRest
      have notT := free p c hd hr
      have out : c ∉ part x := fun inX => notRest (mem_sdiff.mpr ⟨inX, notT⟩)
      rw [split_away sub out]
      exact child_below hp mx ho hd (mem_sdiff.mp hr).1 out
    · intro p c hd hr notRest
      obtain ⟨inX, notT⟩ := mem_sdiff.mp hr
      by_cases inT' : p ∈ T
      · rw [split_of_mem inT']
        exact hst
      · have out : p ∉ part x := fun inX => notRest (mem_sdiff.mpr ⟨inX, inT'⟩)
        rw [split_away sub out]
        exact parent_above hp mx ho hd inX out
  · exact holding_of_split hp mx inT sub proper base

end

/-- A new vertex that none of the others depends on starts its way up. -/
lemma of_insert {D : Finset V} {t : V} (sub : insert t D ⊆ N.vertices)
  (hp : Partition (insert t D) part) (single : part t = {t}) (new : t ∉ D)
  (inOrder : (N.restrict D ((subset_insert t D).trans sub)).Ordered part)
  (last : ∀ c ∈ insert t D, ¬ N.dep t c) :
  ∃ low mark, Rising (N.restrict (insert t D) sub) part t ∅ low mark ∧
    Holding (N.restrict (insert t D) sub) part t ∅ low mark
      ((N.restrict D ((subset_insert t D).trans sub)).potential part) := by
  let rates := (insert t D).image fun u => N.rate (part u)
  have isRate : ∀ {u}, u ∈ insert t D → N.rate (part u) ∈ rates := fun mu =>
    mem_image_of_mem (fun u => N.rate (part u)) mu
  have memT : t ∈ insert t D := mem_insert_self t D
  have atT : ∀ {u}, u ∈ insert t D → part u = part t → u = t := by
    intro u mu eq
    have inT : u ∈ part t := (hp.mem_iff memT mu).mpr eq
    rw [single] at inT
    exact mem_singleton.mp inT
  refine ⟨rates.min' ⟨_, isRate memT⟩ - 1, rates.min' ⟨_, isRate memT⟩, ?_, ?_⟩
  · constructor
    · exact hp
    · exact memT
    · linarith
    · exact min'_le _ _ (isRate memT)
    · exact fun p c hd _ _ => min'_le _ _ (isRate hd.2.1)
    · intro p c hd hh _
      obtain rfl := atT hd.2.1 hh
      exact absurd hd.1 (last c hd.2.2)
    · intro p c hd ne neP neC _
      have old : ∀ {u}, u ∈ insert t D → part u ≠ part t → u ∈ D := by
        intro u mu ne
        refine mem_of_mem_insert_of_ne mu ?_
        rintro rfl
        exact ne rfl
      exact inOrder p c ⟨hd.1, old hd.2.1 neP, old hd.2.2 neC⟩ ne
    all_goals simp
  · have fresh : part t ∉ parts D part := by
      intro isPart
      obtain ⟨u, mu, eq⟩ := mem_parts.mp isPart
      exact new (atT (mem_insert_of_mem mu) eq ▸ mu)
    have potential : ∀ r, (N.restrict (insert t D) sub).potential part r =
      max 0 (N.weight r (part t)) +
        (N.restrict D ((subset_insert t D).trans sub)).potential part r := by
      intro r
      have split : parts (insert t D) part = insert (part t) (parts D part) := image_insert ..
      exact (congrArg (fun s => ∑ S ∈ s, max 0 (N.weight r S)) split).trans (sum_insert fresh)
    have keeps : ∀ r, (N.restrict D ((subset_insert t D).trans sub)).potential part r ≤
      (N.restrict (insert t D) sub).potential part r := by
      intro r
      have nonneg := le_max_left 0 (N.weight r (part t))
      rw [potential]
      linarith
    constructor
    · exact keeps
    · intro r _
      rw [potential, restrict_weight]
      linarith
    · intro r _
      simpa using keeps r

end Rising

end RatedParts
