import Andaluzcoin.RatedParts

/-!
# The best closed sets of a network

A set is closed when it holds whatever its vertices depend on. Where no closed subset of a part
has a higher rate than the part, the parts bound what any closed set is worth above a slope, and
a partition in layers attains the bound. If moreover every proper closed subset of a part has a
lower rate, then each best closed set is made up of parts, and there is one such partition.
-/

namespace RatedParts

open Finset RatedParts.Partition Network

universe u

variable {V : Type u} [DecidableEq V]

def Network.Closed (N : Network V) (U : Finset V) : Prop :=
  U ⊆ N.vertices ∧ ∀ p c, N.dep p c → c ∈ U → p ∈ U

/-- Closed as far as the part goes. -/
def Network.ClosedIn (N : Network V) (C S : Finset V) : Prop :=
  S ⊆ C ∧ ∀ p c, N.dep p c → c ∈ S → p ∈ C → p ∈ S

/-- No closed subset of a part has a higher rate. -/
def Network.Tight (N : Network V) (part : V → Finset V) : Prop :=
  ∀ t ∈ N.vertices, ∀ S, N.ClosedIn (part t) S → N.weight (N.rate (part t)) S ≤ 0

/-- The proper closed subsets of the set have a lower rate. -/
def Network.Minimal (N : Network V) (C : Finset V) : Prop :=
  ∀ S, N.ClosedIn C S → S.Nonempty → S ≠ C → N.weight (N.rate C) S < 0

/-- No part depends on a lower one, and none on itself through others. -/
structure Layered (N : Network V) (part : V → Finset V) (level : Finset V → ℕ) : Prop where
  falling : ∀ p c, N.dep p c → part p ≠ part c → N.rate (part c) ≤ N.rate (part p)
  ascends : ∀ p c, N.dep p c → part p ≠ part c → level (part p) < level (part c)

variable {N : Network V} {part : V → Finset V}

namespace Network

variable {C S U : Finset V}

omit [DecidableEq V] in
/-- A subset of no higher rate is worth no more than the whole set, or than nothing. -/
lemma weight_le_whole (sub : C ⊆ N.vertices) (sub' : S ⊆ C)
  (low : N.weight (N.rate C) S ≤ 0) (nonempty : C.Nonempty) (r : ℚ) :
  N.weight r S ≤ max 0 (N.weight r C) := by
  have sizes := sum_le_sum_of_subset_of_nonneg sub' fun t mt _ => (N.pos t (sub mt)).le
  have nonneg := size_nonneg (sub'.trans sub)
  have zero := weight_rate sub nonempty
  rw [weight_slope (N.rate C), weight_slope (S := C) (N.rate C), zero, zero_add]
  rcases le_total r (N.rate C) with up | down
  · have := mul_le_mul_of_nonneg_left sizes (sub_nonneg.mpr up)
    exact le_max_of_le_right (by linarith)
  · have := mul_nonpos_of_nonpos_of_nonneg (sub_nonpos.mpr down) nonneg
    exact le_max_of_le_left (by linarith)

omit [DecidableEq V] in
/-- It is worth as much only if it is the whole set, nothing, or of the rate of the slope. -/
lemma eq_of_weight_eq (sub : C ⊆ N.vertices) (sub' : S ⊆ C) (low : N.weight (N.rate C) S ≤ 0)
  (nonempty : C.Nonempty) {r : ℚ} (eq : N.weight r S = max 0 (N.weight r C)) :
  S = C ∨ S = ∅ ∨ (N.rate C = r ∧ N.weight r S = 0) := by
  have zero := weight_rate sub nonempty
  rcases lt_trichotomy r (N.rate C) with up | hs | down
  · left
    by_contra ne
    have proper : S ⊂ C := lt_of_le_of_ne sub' ne
    obtain ⟨t, inC, notS⟩ := exists_of_ssubset proper
    have sizes := sum_lt_sum_of_subset sub' inC notS (N.pos t (sub inC))
      fun u mu _ => (N.pos u (sub mu)).le
    have positive := (weight_pos sub nonempty).mpr up
    rw [max_eq_right positive.le, weight_slope (N.rate C), weight_slope (S := C) (N.rate C), zero]
      at eq
    have := mul_lt_mul_of_pos_left sizes (sub_pos.mpr up)
    linarith
  · refine .inr (.inr ⟨hs.symm, ?_⟩)
    rw [eq, hs, zero, max_self]
  · refine .inr (.inl ?_)
    by_contra ne
    have positive := size_pos (sub'.trans sub) (nonempty_iff_ne_empty.mpr ne)
    have negative := (weight_neg sub nonempty).mpr down
    rw [max_eq_left negative.le, weight_slope (N.rate C)] at eq
    have := mul_neg_of_neg_of_pos (sub_neg.mpr down) positive
    linarith

lemma Closed.inter (hc : N.Closed U) (C : Finset V) : N.ClosedIn C (U ∩ C) := by
  refine ⟨inter_subset_right, fun p c hd hi inC => ?_⟩
  exact mem_inter.mpr ⟨hc.2 p c hd (mem_inter.mp hi).1, inC⟩

/-- A set of vertices is worth what its shares of the parts are worth. -/
lemma sum_inter (hp : Partition N.vertices part) (sub : U ⊆ N.vertices)
  (r : ℚ) : ∑ C ∈ parts N.vertices part, N.weight r (U ∩ C) = N.weight r U := by
  have restricted := hp.sum_parts fun t =>
    if t ∈ U then N.worth t - r * N.size t else 0
  rw [← sum_filter, filter_mem_eq_inter, inter_eq_right.mpr sub] at restricted
  rw [weight, ← restricted]
  refine sum_congr rfl fun C _ => ?_
  rw [weight, ← sum_filter, filter_mem_eq_inter, inter_comm]

section
variable (ht : N.Tight part) (hp : Partition N.vertices part) (hc : N.Closed U) (r : ℚ)
include ht hp hc r

lemma Tight.inter_le : ∀ C ∈ parts N.vertices part, N.weight r (U ∩ C) ≤ max 0 (N.weight r C) := by
  intro C isPart
  obtain ⟨t, mt, rfl⟩ := mem_parts.mp isPart
  exact weight_le_whole (hp.sub t mt) inter_subset_right (ht t mt _ (hc.inter _)) (hp.nonempty mt) r

/-- No closed set is worth more than the potential of tight parts. -/
theorem Tight.weight_le : N.weight r U ≤ N.potential part r := by
  rw [← sum_inter hp hc.1 r]
  exact sum_le_sum (ht.inter_le hp hc r)

end

variable (hp : Partition N.vertices part) {U : Finset V}
include hp

lemma tight_of_minimal (minimal : ∀ t ∈ N.vertices, N.Minimal (part t)) : N.Tight part := by
  intro t mt S hc
  by_cases empty : S = ∅
  · rw [empty, weight_empty]
  by_cases whole : S = part t
  · rw [whole, weight_rate (hp.sub t mt) (hp.nonempty mt)]
  · exact (minimal t mt S hc (nonempty_iff_ne_empty.mpr empty) whole).le

/-- A best closed set is made up of minimal parts. -/
lemma part_subset_of_best (minimal : ∀ t ∈ N.vertices, N.Minimal (part t)) (hc : N.Closed U) {r : ℚ}
  (best : N.weight r U = N.potential part r) {t : V} (inU : t ∈ U) : part t ⊆ U := by
  have tight := tight_of_minimal hp minimal
  have mt := hc.1 inU
  have isPart : part t ∈ parts N.vertices part := mem_parts.mpr ⟨t, mt, rfl⟩
  have share : N.weight r (U ∩ part t) = max 0 (N.weight r (part t)) := by
    rw [← sum_inter hp hc.1 r] at best
    exact (sum_eq_sum_iff_of_le (tight.inter_le hp hc r)).mp best _ isPart
  have inside := mem_inter.mpr ⟨inU, hp.self t mt⟩
  have whole : U ∩ part t = part t := by
    rcases eq_of_weight_eq (hp.sub t mt) inter_subset_right
      (tight t mt _ (hc.inter _)) (hp.nonempty mt) share with whole | empty | ⟨hs, hz⟩
    · exact whole
    · rw [empty] at inside
      exact absurd inside (notMem_empty t)
    · by_contra proper
      have negative := minimal t mt _ (hc.inter _) ⟨t, inside⟩ proper
      rw [hs, hz] at negative
      exact lt_irrefl _ negative
  exact inter_eq_right.mp whole

/-- A set of whole parts, with those above the slope and none below, attains the potential. -/
lemma weight_eq_potential
  (sub : U ⊆ N.vertices) {r : ℚ} (whole : ∀ t ∈ N.vertices, ∀ u ∈ part t, (u ∈ U ↔ t ∈ U))
  (hh : ∀ t ∈ U, r ≤ N.rate (part t)) (all : ∀ t ∈ N.vertices, r < N.rate (part t) → t ∈ U) :
  N.weight r U = N.potential part r := by
  rw [← sum_inter hp sub, potential]
  refine sum_congr rfl fun C isPart => ?_
  obtain ⟨t, mt, rfl⟩ := mem_parts.mp isPart
  have sub := hp.sub t mt
  have nonempty := hp.nonempty mt
  by_cases inU : t ∈ U
  · have share := inter_eq_right.mpr fun u mu => (whole t mt u mu).mpr inU
    rw [share, eq_comm, max_eq_right_iff, weight_nonneg sub nonempty]
    exact hh t inU
  have share : U ∩ part t = ∅ := by
    rw [← disjoint_iff_inter_eq_empty, disjoint_left]
    exact fun u mu inT => inU ((whole t mt u inT).mp mu)
  rw [share, weight_empty, eq_comm, max_eq_left_iff, weight_nonpos sub nonempty]
  by_contra up
  exact inU (all t mt (not_le.mp up))

end Network

namespace Layered

variable {level : Finset V → ℕ} {level' : Finset V → ℕ} {x : V} {part' : V → Finset V}

/-- The vertices down to a part in the order of rate and level, with that part the last. -/
def downTo (N : Network V) (part : V → Finset V) (level : Finset V → ℕ) (x : V) : Finset V :=
  N.vertices.filter fun t => N.rate (part x) < N.rate (part t) ∨
    (N.rate (part t) = N.rate (part x) ∧ level (part t) < level (part x)) ∨ part t = part x

lemma mem_downTo {t : V} : t ∈ downTo N part level x ↔ t ∈ N.vertices ∧
  (N.rate (part x) < N.rate (part t) ∨
    (N.rate (part t) = N.rate (part x) ∧ level (part t) < level (part x)) ∨ part t = part x) :=
  mem_filter

lemma closed_downTo (layered : Layered N part level) (x : V) :
  N.Closed (downTo N part level x) := by
  refine ⟨filter_subset _ _, fun p c hd hi => ?_⟩
  rw [mem_downTo] at hi ⊢
  refine ⟨(N.inside p c hd).1, ?_⟩
  by_cases hs : part p = part c
  · rw [hs]
    exact hi.2
  have higher := layered.falling p c hd hs
  have earlier := layered.ascends p c hd hs
  rcases hi.2 with up | ⟨eq, before⟩ | eq
  · exact .inl (up.trans_le higher)
  · rw [eq] at higher
    rcases higher.lt_or_eq with up | eq'
    · exact .inl up
    · exact .inr (.inl ⟨eq'.symm, earlier.trans before⟩)
  · rw [eq] at higher
    rcases higher.lt_or_eq with up | eq'
    · exact .inl up
    · exact .inr (.inl ⟨eq'.symm, eq ▸ earlier⟩)

/-- A choice of parts above a rate reaches the potential. -/
lemma weight_filter (hp : Partition N.vertices part) {r : ℚ} (P : Finset V → Prop)
  [DecidablePred P] (hh : ∀ X, P X → r ≤ N.rate X) (all : ∀ X, r < N.rate X → P X) :
  N.weight r (N.vertices.filter fun t => P (part t)) = N.potential part r := by
  refine weight_eq_potential hp (filter_subset _ _) ?_ ?_ ?_
  · intro t mt u inT
    rw [mem_filter, mem_filter, hp.same t mt u inT]
    exact and_congr_left' (iff_of_true (hp.sub t mt inT) mt)
  · exact fun t hi => hh _ (mem_filter.mp hi).2
  · exact fun t mt up => mem_filter.mpr ⟨mt, all _ up⟩

lemma weight_downTo (hp : Partition N.vertices part) (x : V) :
  N.weight (N.rate (part x)) (downTo N part level x) = N.potential part (N.rate (part x)) := by
  refine weight_filter hp (fun X => N.rate (part x) < N.rate X ∨
    (N.rate X = N.rate (part x) ∧ level X < level (part x)) ∨ X = part x) ?_ fun _ => .inl
  rintro X (up | ⟨eq, -⟩ | rfl)
  · exact up.le
  · exact eq.ge
  · exact le_rfl

section
variable (layered : Layered N part level)
include layered

/-- The potential of a partition in layers is that of a closed set. -/
lemma potential_le (hp : Partition N.vertices part) (hp' : Partition N.vertices part')
  (ht : N.Tight part') (r : ℚ) : N.potential part r ≤ N.potential part' r := by
  let U := N.vertices.filter fun t => r < N.rate (part t)
  have closed : N.Closed U := by
    refine ⟨filter_subset _ _, fun p c hd hi => ?_⟩
    have up := (mem_filter.mp hi).2
    refine mem_filter.mpr ⟨(N.inside p c hd).1, ?_⟩
    by_cases hs : part p = part c
    · rwa [hs]
    · exact up.trans_le (layered.falling p c hd hs)
  rw [← weight_filter hp (r < N.rate ·) (fun _ => le_of_lt) fun _ => id]
  exact ht.weight_le hp' closed r

/-- A minimal part of one partition lies within the part of the other. -/
lemma part_subset (hla' : Layered N part' level') (hp : Partition N.vertices part)
  (hp' : Partition N.vertices part') (ht : N.Tight part)
  (hm' : ∀ t ∈ N.vertices, N.Minimal (part' t)) (mx : x ∈ N.vertices) : part' x ⊆ part x := by
  -- the sets down to a vertex are best for the other partition, hence made up of its parts
  have made : ∀ y ∈ N.vertices, part' y ⊆ downTo N part level y := by
    intro y my
    have tight' := tight_of_minimal hp' hm'
    have closed := layered.closed_downTo y
    have best := le_antisymm (tight'.weight_le hp' closed _) (by
        rw [weight_downTo hp y]
        exact hla'.potential_le hp' hp ht _)
    refine part_subset_of_best hp' hm' closed best ?_
    exact mem_downTo.mpr ⟨my, .inr (.inr rfl)⟩
  intro t inX
  have mt := hp'.sub x mx inX
  by_contra out
  have ne : part t ≠ part x := fun eq => out ((hp.mem_iff mx mt).mpr eq)
  have inT : x ∈ part' t := by
    rw [hp'.same x mx t inX]
    exact hp'.self x mx
  have after := (mem_downTo.mp (made x mx inX)).2
  have before := (mem_downTo.mp (made t mt inT)).2
  rcases after with up | ⟨eq, lower⟩ | eq
  · rcases before with up' | ⟨eq', -⟩ | eq'
    · exact lt_asymm up up'
    · exact up.ne eq'
    · exact ne eq'.symm
  · rcases before with up' | ⟨-, hl'⟩ | eq'
    · exact up'.ne eq
    · exact lt_asymm lower hl'
    · exact ne eq'.symm
  · exact ne eq

/-- There is one partition in layers of minimal parts. -/
theorem unique (hl' : Layered N part' level') (hp : Partition N.vertices part)
  (hp' : Partition N.vertices part') (minimal : ∀ t ∈ N.vertices, N.Minimal (part t))
  (hm' : ∀ t ∈ N.vertices, N.Minimal (part' t)) (mx : x ∈ N.vertices) : part x = part' x := by
  have tight := tight_of_minimal hp minimal
  have tight' := tight_of_minimal hp' hm'
  exact Finset.Subset.antisymm (hl'.part_subset layered hp' hp tight' minimal mx)
    (layered.part_subset hl' hp hp' tight hm' mx)

end

omit [DecidableEq V] in
/-- A partition in order is in layers, by the number of vertices in higher parts. -/
lemma of_ordered (ho : N.Ordered part) :
  Layered N part fun C => (N.vertices.filter fun u => N.rate C < N.rate (part u)).card := by
  constructor
  · exact fun p c hd ne => (ho p c hd ne).le
  intro p c hd ne
  have higher := ho p c hd ne
  apply card_lt_card
  rw [ssubset_iff_of_subset]
  · refine ⟨p, mem_filter.mpr ⟨(N.inside p c hd).1, higher⟩, ?_⟩
    exact fun hi => lt_irrefl _ (mem_filter.mp hi).2
  · intro u hi
    have up := mem_filter.mp hi
    exact mem_filter.mpr ⟨up.1, higher.trans up.2⟩

/-- Cutting a part into two of its rate, the second of them below the first, keeps the
layers. -/
lemma split_layers (layered : Layered N part level) (hp : Partition N.vertices part)
  (mx : x ∈ N.vertices) {T : Finset V} (sub : T ⊆ part x) (nonempty : T.Nonempty)
  (rate : N.rate T = N.rate (part x)) (rate' : N.rate (part x \ T) = N.rate (part x))
  (free : ∀ p c, N.dep p c → p ∈ part x \ T → c ∉ T) : Layered N (split part x T) fun C =>
    if C = T then 2 * level (part x) else if C = part x \ T then 2 * level (part x) + 1
    else 2 * level C := by
  have kept : ∀ t ∈ N.vertices, N.rate (split part x T t) = N.rate (part t) := by
    intro t mt
    rw [split]
    split_ifs with inT inX
    · rw [rate, hp.same x mx t (sub inT)]
    · rw [rate', hp.same x mx t inX]
    · rfl
  have differs : part x \ T ≠ T := by
    intro eq
    obtain ⟨t, inT⟩ := nonempty
    exact (mem_sdiff.mp (eq.symm ▸ inT : t ∈ part x \ T)).2 inT
  have foreign : ∀ t ∈ N.vertices, t ∉ part x → part t ≠ T ∧ part t ≠ part x \ T := by
    intro t mt out
    have self := hp.self t mt
    constructor
    · intro eq
      exact out (sub (eq ▸ self))
    · intro eq
      exact out (mem_sdiff.mp (eq ▸ self)).1
  -- the new level of a vertex: twice the old one, and one more below the cut
  have raised : ∀ t ∈ N.vertices, (if split part x T t = T then 2 * level (part x)
      else if split part x T t = part x \ T then 2 * level (part x) + 1
      else 2 * level (split part x T t)) =
    2 * level (part t) + if t ∈ part x \ T then 1 else 0 := by
    intro t mt
    by_cases inX : t ∈ part x
    · rw [hp.same x mx t inX]
      by_cases inT : t ∈ T
      · rw [split_of_mem inT, if_pos rfl, if_neg (fun hi => (mem_sdiff.mp hi).2 inT), add_zero]
      · have hr := mem_sdiff.mpr ⟨inX, inT⟩
        rw [split_of_rest hr, if_neg differs, if_pos rfl, if_pos hr]
    · have ne := foreign t mt inX
      rw [split_away sub inX, if_neg ne.1, if_neg ne.2, if_neg]
      · rfl
      · exact fun hi => inX (mem_sdiff.mp hi).1
  constructor
  · intro p c hd ne
    obtain ⟨mp, mc⟩ := N.inside p c hd
    rw [kept p mp, kept c mc]
    by_cases hs : part p = part c
    · rw [hs]
    · exact layered.falling p c hd hs
  intro p c hd ne
  obtain ⟨mp, mc⟩ := N.inside p c hd
  rw [raised p mp, raised c mc]
  by_cases hs : part p = part c
  · -- both ends in the divided part: the dependency goes from the top to the rest
    have inX : p ∈ part x ∧ c ∈ part x := by
      rw [hp.mem_iff mx mp, hp.mem_iff mx mc, hs, and_self]
      by_contra out
      have outP : p ∉ part x := by rwa [hp.mem_iff mx mp, hs]
      have outC : c ∉ part x := by rwa [hp.mem_iff mx mc]
      rw [split_away sub outP, split_away sub outC] at ne
      exact ne hs
    have notRest : p ∉ part x \ T := by
      intro hr
      rw [split_of_rest hr, split_of_rest (mem_sdiff.mpr ⟨inX.2, free p c hd hr⟩)] at ne
      exact ne rfl
    have inT : p ∈ T := by
      by_contra notT
      exact notRest (mem_sdiff.mpr ⟨inX.1, notT⟩)
    have notT : c ∉ T := by
      intro inT'
      rw [split_of_mem inT, split_of_mem inT'] at ne
      exact ne rfl
    rw [hs, if_neg notRest, if_pos (mem_sdiff.mpr ⟨inX.2, notT⟩)]
    omega
  · have earlier := layered.ascends p c hd hs
    split_ifs <;> omega

end Layered

end RatedParts
