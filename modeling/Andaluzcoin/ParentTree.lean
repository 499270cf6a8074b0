import Mathlib

/-!
# Trees given by parent pointers

A partial function to the parent, graded by height. Ancestors are what repeated
steps to the parent reach; at each height a node has at most one. Walking two nodes
of the same height up in step meets at their last common ancestor.
-/

namespace ParentTree

open List

universe u

variable {K : Type u} (parent : K → Option K) (height : K → ℕ)

/-- Heights grow by one from the parent. -/
def Graded : Prop := ∀ k p, parent k = some p → height k = height p + 1

/-- The node `n` steps above `k`. -/
def up : ℕ → K → Option K
  | 0, k => some k
  | n + 1, k => (parent k).bind (up n)

/-- The `n` nodes from `k` upwards. -/
def trail : ℕ → K → List K
  | 0, _ => []
  | n + 1, k => k :: (parent k).elim [] (trail n)

def Ancestor (a k : K) : Prop := ∃ n, up parent n k = some a

def getAncestor (k : K) (h : ℕ) : Option K :=
  if h ≤ height k then up parent (height k - h) k else none

/-- Walk up from two nodes until they are equal, for at most `n` steps. -/
def meet [DecidableEq K] : ℕ → K → K → Option K
  | 0, a, b => if a = b then some a else none
  | n + 1, a, b =>
    if a = b then some a
    else (parent a).bind fun a => (parent b).bind fun b => meet n a b

def lastCommonAncestor [DecidableEq K] (a b : K) : Option K :=
  (getAncestor parent height a (min (height a) (height b))).bind fun a' =>
    (getAncestor parent height b (min (height a) (height b))).bind fun b' =>
      meet parent (min (height a) (height b)) a' b'

variable {parent height}

lemma up_succ_of_parent {k p : K} (edge : parent k = some p) (n : ℕ) :
  up parent (n + 1) k = up parent n p := by
  simp [up, edge]

lemma up_succ {n : ℕ} {k a : K} (hs : up parent (n + 1) k = some a) :
  ∃ p, parent k = some p ∧ up parent n p = some a :=
  Option.bind_eq_some_iff.mp hs

lemma up_add (m n : ℕ) (k : K) : up parent (m + n) k = (up parent m k).bind (up parent n) := by
  induction m generalizing k with
  | zero => simp [up]
  | succ m ih =>
    rw [add_right_comm]
    cases edge : parent k with
    | none => simp [up, edge]
    | some p => rw [up_succ_of_parent edge, up_succ_of_parent edge, ih]

lemma height_up (graded : Graded parent height) {n : ℕ} {k a : K}
  (hs : up parent n k = some a) : height k = height a + n := by
  induction n generalizing k with
  | zero =>
    cases hs
    rfl
  | succ n ih =>
    obtain ⟨p, edge, rest⟩ := up_succ hs
    have first := graded k p edge
    have later := ih rest
    omega

namespace Ancestor

variable {a k p : K}

lemma refl (k : K) : Ancestor parent k k := ⟨0, rfl⟩

lemma trans {b c : K} (upper : Ancestor parent a b) (lower : Ancestor parent b c) :
  Ancestor parent a c := by
  obtain ⟨m, hs⟩ := lower
  obtain ⟨n, more⟩ := upper
  refine ⟨m + n, ?_⟩
  rw [up_add, hs]
  exact more

lemma step (edge : parent k = some p) (ha : Ancestor parent a p) : Ancestor parent a k := by
  obtain ⟨n, hs⟩ := ha
  exact ⟨n + 1, by rwa [up_succ_of_parent edge]⟩

lemma of_parent (edge : parent k = some p) : Ancestor parent p k := step edge (refl p)

lemma eq_or_above (ha : Ancestor parent a k) :
  a = k ∨ ∃ p, parent k = some p ∧ Ancestor parent a p := by
  obtain ⟨_ | n, hs⟩ := ha
  · cases hs
    exact Or.inl rfl
  · obtain ⟨p, edge, rest⟩ := up_succ hs
    exact Or.inr ⟨p, edge, n, rest⟩

variable (graded : Graded parent height) {a b k : K}
include graded

lemma height_le (ha : Ancestor parent a k) : height a ≤ height k := by
  obtain ⟨n, hs⟩ := ha
  have := height_up graded hs
  omega

lemma up_eq (ha : Ancestor parent a k) : up parent (height k - height a) k = some a := by
  obtain ⟨n, hs⟩ := ha
  have grown := height_up graded hs
  have : height k - height a = n := by omega
  rwa [this]

lemma eq_of_height (first : Ancestor parent a k)
  (hs : Ancestor parent b k) (hsa : height a = height b) : a = b := by
  have atA := first.up_eq graded
  have atB := hs.up_eq graded
  rw [hsa, atB] at atA
  exact (Option.some.inj atA).symm

/-- Of two ancestors of one node the lower one descends from the other. -/
lemma of_height_le (first : Ancestor parent a k)
  (hs : Ancestor parent b k) (lower : height a ≤ height b) : Ancestor parent a b := by
  obtain ⟨m, toA⟩ := first
  obtain ⟨n, toB⟩ := hs
  have grownA := height_up graded toA
  have grownB := height_up graded toB
  obtain ⟨d, rfl⟩ : ∃ d, m = n + d := ⟨m - n, by omega⟩
  rw [up_add, toB] at toA
  exact ⟨d, toA⟩

end Ancestor

lemma ancestor_of_getAncestor {k a : K} {h : ℕ} (hf : getAncestor parent height k h = some a) :
  Ancestor parent a k := by
  unfold getAncestor at hf
  split at hf
  · exact ⟨_, hf⟩
  · cases hf

lemma getAncestor_of_ancestor (graded : Graded parent height) {a k : K}
  (ha : Ancestor parent a k) : getAncestor parent height k (height a) = some a := by
  rw [getAncestor, if_pos (ha.height_le graded)]
  exact ha.up_eq graded

/-- A node has an ancestor at every height from that of a given ancestor on. -/
lemma getAncestor_between (graded : Graded parent height) {r k : K} {h : ℕ}
  (ha : Ancestor parent r k) (low : height r ≤ h) (hh : h ≤ height k) :
  ∃ k', getAncestor parent height k h = some k' ∧ height k' = h ∧ Ancestor parent k' k ∧
    ∀ g, Ancestor parent g k → height g ≤ h → Ancestor parent g k' := by
  obtain ⟨n, hs⟩ := ha
  have grown := height_up graded hs
  obtain ⟨d, rfl⟩ : ∃ d, n = (height k - h) + d := ⟨n - (height k - h), by omega⟩
  rw [up_add] at hs
  obtain ⟨k', toK', -⟩ := Option.bind_eq_some_iff.mp hs
  have atK' := height_up graded toK'
  refine ⟨k', by rw [getAncestor, if_pos hh, toK'], by omega, ⟨_, toK'⟩, ?_⟩
  intro g gK below
  exact gK.of_height_le graded ⟨_, toK'⟩ (by omega)

section
variable {a b k : K} {n : ℕ}

lemma trail_of_parent {p : K} (edge : parent k = some p) (n : ℕ) :
  trail parent (n + 1) k = k :: trail parent n p := by
  simp [trail, edge]

/-- A trail counts the node it starts from and, one longer, also the one it leads to. -/
lemma trail_length (hs : up parent n k = some a) : (trail parent (n + 1) k).length = n + 1 := by
  induction n generalizing k with
  | zero => cases edge : parent k <;> simp [trail, edge]
  | succ n ih =>
    obtain ⟨p, edge, rest⟩ := up_succ hs
    rw [trail_of_parent edge, length_cons, ih rest]

lemma parent_of_mem_trail (hs : up parent n k = some a)
  (hm : b ∈ trail parent n k) : ∃ p, parent b = some p := by
  induction n generalizing k with
  | zero => cases hm
  | succ n ih =>
    obtain ⟨p, edge, rest⟩ := up_succ hs
    rw [trail_of_parent edge] at hm
    rcases mem_cons.mp hm with rfl | hl
    · exact ⟨p, edge⟩
    · exact ih rest hl

lemma height_lt_of_mem_trail (graded : Graded parent height)
  (hs : up parent n k = some a) (hm : b ∈ trail parent n k) :
  height a < height b ∧ Ancestor parent b k := by
  induction n generalizing k with
  | zero => cases hm
  | succ n ih =>
    obtain ⟨p, edge, rest⟩ := up_succ hs
    rw [trail_of_parent edge] at hm
    rcases mem_cons.mp hm with rfl | hl
    · have grown := height_up graded hs
      exact ⟨by omega, .refl b⟩
    · obtain ⟨ha, below⟩ := ih rest hl
      exact ⟨ha, .step edge below⟩

/-- The nodes between an ancestor and `k`, lowest first, are found by their heights. -/
lemma getAncestor_trail (graded : Graded parent height) (hs : up parent n k = some a) :
  (range n).map (fun i => getAncestor parent height k (height a + 1 + i))
    = (trail parent n k).reverse.map some := by
  induction n generalizing k with
  | zero => rfl
  | succ n ih =>
    obtain ⟨p, edge, rest⟩ := up_succ hs
    have first := height_up graded hs
    have later := height_up graded rest
    have last : getAncestor parent height k (height a + 1 + n) = some k := by
      rw [getAncestor, if_pos (by omega)]
      have : height k - (height a + 1 + n) = 0 := by omega
      rw [this]
      rfl
    have others : (range n).map (fun i => getAncestor parent height k (height a + 1 + i))
      = (range n).map fun i => getAncestor parent height p (height a + 1 + i) := by
      apply map_congr_left
      intro i bound
      have bound := mem_range.mp bound
      rw [getAncestor, getAncestor, if_pos (by omega), if_pos (by omega)]
      obtain ⟨d, hd⟩ : ∃ d, height k - (height a + 1 + i) = d + 1 :=
        ⟨height k - (height a + 1 + i) - 1, by omega⟩
      have : height p - (height a + 1 + i) = d := by omega
      rw [hd, this, up_succ_of_parent edge]
    rw [range_succ, map_append, others, ih rest, trail_of_parent edge, reverse_cons,
      map_append, map_singleton, map_singleton, last]

end

section
variable (parent) in
/-- Each node of the list is a child of the one before it, the first one of `t`. -/
def Path : K → List K → Prop
  | _, [] => True
  | t, b :: rest => parent b = some t ∧ Path b rest

/-- The node at which a path from `t` ends. -/
def endOf : K → List K → K
  | t, [] => t
  | _, b :: rest => endOf b rest

lemma path_append {t b : K} {blocks : List K} :
  Path parent t (blocks ++ [b]) ↔ Path parent t blocks ∧ parent b = some (endOf t blocks) := by
  induction blocks generalizing t with
  | nil => simp [Path, endOf]
  | cons first rest ih => simp [Path, endOf, ih, and_assoc]

lemma endOf_append (t b : K) (blocks : List K) : endOf t (blocks ++ [b]) = b := by
  induction blocks generalizing t with
  | nil => rfl
  | cons first rest ih => exact ih first

lemma path_trail {n : ℕ} {k t : K} (hs : up parent n k = some t) :
  Path parent t (trail parent n k).reverse ∧ endOf t (trail parent n k).reverse = k := by
  induction n generalizing k with
  | zero =>
    cases hs
    exact ⟨trivial, rfl⟩
  | succ n ih =>
    obtain ⟨p, edge, rest⟩ := up_succ hs
    obtain ⟨path, last⟩ := ih rest
    rw [trail_of_parent edge, reverse_cons, path_append, endOf_append, last]
    exact ⟨⟨path, edge⟩, rfl⟩

end

variable {a b r : K}

/-- A common ancestor of two nodes lies above any two of their ancestors that differ at one height. -/
lemma common_height_lt (graded : Graded parent height) {a' b' g : K} (hA : Ancestor parent a' a)
  (hB : Ancestor parent b' b) (level : height a' = height b') (ne : a' ≠ b')
  (gA : Ancestor parent g a) (gB : Ancestor parent g b) : height g < height a' := by
  by_contra! low
  have atA := hA.of_height_le graded gA low
  have atB := hB.of_height_le graded gB (level ▸ low)
  exact ne (atA.eq_of_height graded atB level)

/-- Moving two nodes up to such a height keeps their common ancestors. -/
lemma common_iff (graded : Graded parent height) {a' b' : K} (hA : Ancestor parent a' a)
  (hB : Ancestor parent b' b) (level : height a' = height b')
  (low : ∀ g, Ancestor parent g a → Ancestor parent g b → height g ≤ height a') (g : K) :
  Ancestor parent g a' ∧ Ancestor parent g b' ↔ Ancestor parent g a ∧ Ancestor parent g b := by
  constructor
  · rintro ⟨gA, gB⟩
    exact ⟨gA.trans hA, gB.trans hB⟩
  · rintro ⟨gA, gB⟩
    have above := low g gA gB
    exact ⟨gA.of_height_le graded hA above, gB.of_height_le graded hB (level ▸ above)⟩

/-- Two nodes that differ at one height have the common ancestors of their parents. -/
lemma common_parents (graded : Graded parent height) (level : height a = height b) (ne : a ≠ b)
  (rA : Ancestor parent r a) (rB : Ancestor parent r b) :
  ∃ p q, parent a = some p ∧ parent b = some q ∧ height a = height p + 1 ∧ height p = height q ∧
    ∀ g, Ancestor parent g p ∧ Ancestor parent g q ↔ Ancestor parent g a ∧ Ancestor parent g b := by
  have low {g : K} := common_height_lt graded (.refl a) (.refl b) level ne (g := g)
  obtain rfl | ⟨p, edgeA, -⟩ := rA.eq_or_above
  · exact absurd (low rA rB) (lt_irrefl _)
  obtain rfl | ⟨q, edgeB, -⟩ := rB.eq_or_above
  · exact absurd (low rA rB) (level ▸ lt_irrefl _)
  have heightA := graded a p edgeA
  have heightB := graded b q edgeB
  refine ⟨p, q, edgeA, edgeB, heightA, by omega, common_iff graded (.of_parent edgeA)
    (.of_parent edgeB) (by omega) fun g gA gB => ?_⟩
  have above := low gA gB
  omega

variable [DecidableEq K]

lemma meet_spec (graded : Graded parent height) {n : ℕ}
  (level : height a = height b) (ha : Ancestor parent r a) (hab : Ancestor parent r b)
  (fuel : height a ≤ height r + n) : ∃ f, meet parent n a b = some f ∧
    ∀ g, Ancestor parent g f ↔ Ancestor parent g a ∧ Ancestor parent g b := by
  induction n generalizing a b with
  | zero =>
    have rHeight := ha.height_le graded
    have atA := ha.eq_of_height graded (.refl a) (by omega)
    have atB := hab.eq_of_height graded (.refl b) (by omega)
    obtain rfl : a = b := atA.symm.trans atB
    exact ⟨a, by simp [meet], fun g => and_self_iff.symm⟩
  | succ n ih =>
    by_cases hs : a = b
    · subst hs
      exact ⟨a, by simp [meet], fun g => and_self_iff.symm⟩
    obtain ⟨p, q, edgeA, edgeB, grown, level', common⟩ := common_parents graded level hs ha hab
    obtain ⟨rP, rQ⟩ := (common r).mpr ⟨ha, hab⟩
    obtain ⟨f, hf, last⟩ := ih level' rP rQ (by omega)
    exact ⟨f, by simp [meet, hs, edgeA, edgeB, hf], fun g => (last g).trans (common g)⟩

/-- Two nodes with a common ancestor have a last one, and the walk finds it. -/
theorem lastCommonAncestor_spec (graded : Graded parent height)
  (ha : Ancestor parent r a) (hab : Ancestor parent r b) :
  ∃ f, lastCommonAncestor parent height a b = some f ∧ Ancestor parent f a ∧
    Ancestor parent f b ∧ ∀ g, Ancestor parent g a → Ancestor parent g b → Ancestor parent g f := by
  have rA := ha.height_le graded
  have rB := hab.height_le graded
  obtain ⟨a', getA, heightA, aboveA', belowA⟩ := getAncestor_between graded ha
    (h := min (height a) (height b)) (by omega) (by omega)
  obtain ⟨b', getB, heightB, hab', belowB⟩ := getAncestor_between graded hab
    (h := min (height a) (height b)) (by omega) (by omega)
  obtain ⟨f, hf, last⟩ := meet_spec graded (n := min (height a) (height b))
    (heightA.trans heightB.symm) (belowA r ha (by omega)) (belowB r hab (by omega))
    (by omega)
  obtain ⟨fA, fB⟩ := (last f).mp (.refl f)
  refine ⟨f, ?_, fA.trans aboveA', fB.trans hab', ?_⟩
  · simp only [lastCommonAncestor, getA, getB, Option.bind_some, hf]
  intro g gA gB
  have lowA := gA.height_le graded
  have lowB := gB.height_le graded
  exact (last g).mpr ⟨belowA g gA (by omega), belowB g gB (by omega)⟩

end ParentTree
