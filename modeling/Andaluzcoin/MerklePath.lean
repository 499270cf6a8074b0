import Andaluzcoin.PartialMerkleTree

/-!
# Merkle paths

`MerkleComputation` reads the leaves one by one and keeps, in `inner`, the hash of a full subtree
for each bit of the number of leaves read. A last sweep over the rightmost branch repeats the last
hash of the odd levels. Seen from a level up, the number of leaves is a binary counter of nodes of
that level, and there is a slot for each of its bits: `Block` says which node lies in which slot.
-/

namespace MerklePath

open Merkle List Function

variable {α : Type}

/-- The 32 hashes of `inner`, not written at first; a `matchlevel` of -1 is `none`. -/
structure Inner (α : Type) where
  inner : ℕ → Option α
  matchlevel : Option ℕ

/-- The variables of a climb over the zero bits of `count`. -/
structure Climb (α : Type) where
  level : ℕ
  h : α
  matchh : Bool
  path : List α

open Climb

def Climb.combine (hash : α → α → α) (matchlevel : Option ℕ) (left : α) (s : Climb α) : Climb α where
  level := s.level + 1
  h := hash left s.h
  matchh := s.matchh || matchlevel == some s.level
  path :=
    if s.matchh then s.path ++ [left]
    else if matchlevel == some s.level then s.path ++ [s.h]
    else s.path

/-- One step for each of the lower bits of `count` that are zero. There is no result where `inner`
has no such index or where the slot was not written. -/
def propagate (hash : α → α → α) (M : Inner α) (count : ℕ) (s : Climb α) : Option (Climb α) :=
  if s.level < 32 then
    if count.testBit s.level then some s
    else (M.inner s.level).bind fun left => propagate hash M count (s.combine hash M.matchlevel left)
  else none
termination_by 32 - s.level
decreasing_by
  simp only [Climb.combine]
  omega

structure Computation (α : Type) extends Inner α where
  count : ℕ
  path : List α

def Inner.store (M : Inner α) (s : Climb α) : Inner α where
  inner := update M.inner s.level (some s.h)
  matchlevel := if s.matchh then some s.level else M.matchlevel

def processLeaf (hash : α → α → α) (leafPos : ℕ) (s : Computation α) (leaf : α) :
  Option (Computation α) :=
  let count := (s.count + 1) % 2 ^ 32
  (propagate hash s.toInner count ⟨0, leaf, s.count == leafPos, s.path⟩).map fun c =>
    ⟨s.store c, count, c.path⟩

/-- The level of the first bit of `count` that is not zero. -/
def firstLevel (count level : ℕ) : Option ℕ :=
  if level < 32 then if count.testBit level then some level else firstLevel count (level + 1)
  else none
termination_by 32 - level

/-- The sweep: the last hash of an odd level is combined with itself. Each round is at a higher
level, so that 32 rounds are enough. -/
def sweep (hash : α → α → α) (M : Inner α) : ℕ → ℕ → Climb α → Option (List α)
  | 0, _, _ => none
  | rounds + 1, count, s =>
    if count = 2 ^ s.level then some s.path
    else
      let path := if s.matchh then s.path ++ [s.h] else s.path
      let count := (count + 2 ^ s.level) % 2 ^ 32
      (propagate hash M count ⟨s.level + 1, hash s.h s.h, s.matchh, path⟩).bind
        (sweep hash M rounds count)

def merkleComputation (hash : α → α → α) (leaves : List α) (leafPos : ℕ) : Option (List α) :=
  if leaves.length = 0 then some []
  else do
    let s ← leaves.foldlM (processLeaf hash leafPos) ⟨⟨fun _ => none, none⟩, 0, []⟩
    let level ← firstLevel s.count 0
    let h ← s.inner level
    sweep hash s.toInner 32 s.count ⟨level, h, s.matchlevel == some level, s.path⟩

def computeMerklePath (hash : α → α → α) (leaves : List α) (position : ℕ) : Option (List α) :=
  merkleComputation hash leaves position

/-- A leaf combined with the elements of a path, by the bits of its position. -/
def foldPath (hash : α → α → α) : α → List α → ℕ → α
  | h, [], _ => h
  | h, s :: path, pos => foldPath hash (if pos % 2 = 1 then hash s h else hash h s) path (pos / 2)

/-- Node `i` of level `k` has a slot when there are slots for the first `D` leaves. -/
def Bit (D k i : ℕ) : Prop := D / 2 ^ k = i + 1 ∧ i % 2 = 0

section
variable {D l k i c : ℕ}

lemma div_succ (n l : ℕ) : n / 2 ^ (l + 1) = n / 2 ^ l / 2 := by
  rw [pow_succ, Nat.div_div_eq_div_mul]

lemma div_even (h : 2 ^ (l + 1) ∣ D) : D / 2 ^ l = 2 * (D / 2 ^ (l + 1)) := by
  obtain ⟨q, rfl⟩ := h
  rw [Nat.mul_div_cancel_left _ (Nat.two_pow_pos _), pow_succ, mul_assoc,
    Nat.mul_div_cancel_left _ (Nat.two_pow_pos _)]

lemma add_div (D l : ℕ) : (D + 2 ^ l) / 2 ^ l = D / 2 ^ l + 1 :=
  Nat.add_div_right _ (Nat.two_pow_pos l)

lemma dvd_lower (h : 2 ^ (l + 1) ∣ D) : 2 ^ l ∣ D := (pow_dvd_pow 2 l.le_succ).trans h

lemma not_bit (h : 2 ^ (l + 1) ∣ D) : ¬ Bit D l i := by
  have even := div_even h
  rintro ⟨next, parity⟩
  omega

lemma bit_add (h : 2 ^ (l + 1) ∣ D) :
  Bit (D + 2 ^ l) k i ↔ (k = l ∧ i = D / 2 ^ l) ∨ Bit D k i := by
  have even := div_even h
  have add := add_div D l
  unfold Bit
  rcases lt_trichotomy k l with low | rfl | high
  · have lower : 2 ^ (k + 1) ∣ D := (pow_dvd_pow 2 (by omega)).trans h
    have old := div_even lower
    have new := div_even (dvd_add lower (pow_dvd_pow 2 low))
    omega
  · omega
  · obtain ⟨t, rfl⟩ := Nat.exists_eq_add_of_le high
    have same : (D + 2 ^ l) / 2 ^ (l + 1 + t) = D / 2 ^ (l + 1 + t) := by
      rw [pow_add, ← Nat.div_div_eq_div_mul, ← Nat.div_div_eq_div_mul, div_succ, div_succ, add]
      congr 1
      omega
    rw [Nat.succ_eq_add_one, same]
    omega

lemma dvd_cases (h : 2 ^ l ∣ D) : 2 ^ (l + 1) ∣ D ∨ ∃ D', D = D' + 2 ^ l ∧ 2 ^ (l + 1) ∣ D' := by
  obtain ⟨q, rfl⟩ := h
  obtain ⟨r, rfl | rfl⟩ := q.even_or_odd'
  · exact .inl ⟨r, by ring⟩
  · exact .inr ⟨2 ^ (l + 1) * r, by ring, r, rfl⟩

lemma testBit_of_dvd (h : 2 ^ (l + 1) ∣ D) :
  D.testBit l = false ∧ (D + 2 ^ l).testBit l = true := by
  rw [Nat.testBit_eq_decide_div_mod_eq, Nat.testBit_eq_decide_div_mod_eq, add_div, div_even h,
    decide_eq_false_iff_not, decide_eq_true_iff]
  omega

lemma level_lt (h : 2 ^ l ≤ c) (small : c < 2 ^ 32) : l < 32 :=
  (Nat.pow_lt_pow_iff_right one_lt_two).mp (h.trans_lt small)

lemma firstLevel_spec (pos : 0 < c) (small : c < 2 ^ 32) (l : ℕ) (hc : 2 ^ l ∣ c) :
  ∃ D l', firstLevel c l = some l' ∧ c = D + 2 ^ l' ∧ 2 ^ (l' + 1) ∣ D := by
  have range := level_lt (Nat.le_of_dvd pos hc) small
  rw [firstLevel, if_pos range]
  rcases dvd_cases hc with up | ⟨D, rfl, dvd⟩
  · rw [if_neg (by simp [testBit_of_dvd up])]
    exact firstLevel_spec pos small (l + 1) up
  · exact ⟨D, l, if_pos (testBit_of_dvd dvd).2, rfl, dvd⟩
termination_by 32 - l

lemma calcHeight_eq {n : ℕ} (all : n ≤ 2 ^ l) (more : 2 ^ l < 2 * n) : calcHeight n = l := by
  obtain ⟨short, long⟩ := calcHeight_spec n
  rw [← not_lt, lt_calcTreeWidth, one_mul, not_lt] at short
  rcases lt_trichotomy (calcHeight n) l with low | hs | high
  · have := Nat.pow_le_pow_right two_pos (Nat.succ_le_of_lt low)
    rw [pow_succ] at this
    omega
  · exact hs
  · have many := lt_calcTreeWidth.mp (long l high)
    omega

end

lemma foldPath_append {hash : α → α → α} (path : List α) (s h : α) (p : ℕ) :
  foldPath hash h (path ++ [s]) p =
    if p / 2 ^ path.length % 2 = 1 then hash s (foldPath hash h path p)
    else hash (foldPath hash h path p) s := by
  induction path generalizing h p with
  | nil => simp [foldPath]
  | cons x path ih =>
    rw [cons_append, foldPath, ih, length_cons, pow_succ', Nat.div_div_eq_div_mul, foldPath]

/-- The leaf whose path is computed. -/
structure Target (α : Type) where
  hash : α → α → α
  null : α
  leaves : List α
  pos : ℕ
  pos_lt : pos < leaves.length

namespace Target

variable (T : Target α) {M : Inner α} {s : Climb α} {path : List α} {D D' c l k i : ℕ}

/-- A node of the tree. -/
def node (l j : ℕ) : α := calcHash T.hash T.null T.leaves.length T.leaves l j

/-- The node of a level above the leaf. -/
def above (l : ℕ) : ℕ := T.pos / 2 ^ l

/-- The path leads from the leaf to the node of level `l` above it. -/
def Matched (path : List α) (l : ℕ) : Prop :=
  path.length = l ∧ foldPath T.hash (T.node 0 T.pos) path T.pos = T.node l (T.above l)

/-- The slots for the first `D` leaves. -/
def Slots (M : Inner α) (D : ℕ) : Prop := ∀ k i, Bit D k i → M.inner k = some (T.node k i)

/-- The path leads to the slot of `matchlevel`, which is the one above the leaf. -/
structure Waiting (M : Inner α) (D : ℕ) (path : List α) : Prop where
  level : ∀ k, M.matchlevel = some k ↔ Bit D k (T.above k)
  matched : ∀ k, M.matchlevel = some k → T.Matched path k
  quiet : M.matchlevel = none → path = []

/-- A climb carries the hash of the node that follows the first `D` leaves. -/
structure Climbing (M : Inner α) (D : ℕ) (s : Climb α) : Prop where
  slots : T.Slots M D
  top : s.h = T.node s.level (D / 2 ^ s.level)
  here : s.matchh = true ↔ T.above s.level = D / 2 ^ s.level
  found : s.matchh = true → T.Matched s.path s.level
  waits : s.matchh = false → T.Waiting M D s.path

/-- The state once `c` leaves are read. -/
structure Read (c : ℕ) (s : Computation α) : Prop where
  count : s.count = c
  slots : T.Slots s.toInner c
  waits : T.Waiting s.toInner c s.path

variable {T}

/-- The nodes in the slots come before the leaf, if the first leaves do. -/
lemma above_ne (h : D ≤ T.pos) (hb : Bit D k i) : T.above k ≠ i := by
  have le : D / 2 ^ k ≤ T.above k := Nat.div_le_div_right h
  rw [hb.1] at le
  omega

lemma Waiting.of_bits {M' : Inner α} (h : T.Waiting M D path) (hM : M'.matchlevel = M.matchlevel)
  (bits : ∀ k, Bit D k (T.above k) ↔ Bit D' k (T.above k)) : T.Waiting M' D' path := by
  refine ⟨fun k => ?_, ?_, ?_⟩ <;> rw [hM]
  · exact (h.level k).trans (bits k)
  · exact h.matched
  · exact h.quiet

section
variable (h : T.Waiting M (D + 2 ^ l) path) (dvd : 2 ^ (l + 1) ∣ D)
include h dvd

lemma Waiting.here : M.matchlevel = some l ↔ T.above l = D / 2 ^ l := by
  rw [h.level, bit_add dvd, and_iff_right rfl, or_iff_left (not_bit dvd)]

/-- The other slots, when the leaf is not below the first one. -/
lemma Waiting.rest (hn : M.matchlevel ≠ some l) : T.Waiting M D path := by
  refine h.of_bits rfl fun k => (bit_add dvd).trans (or_iff_right ?_)
  rintro ⟨rfl, ha⟩
  exact hn ((h.here dvd).mpr ha)

end

lemma Matched.push (h : T.Matched path l) {y : α} (hy : T.node (l + 1) (T.above l / 2) =
    if T.above l % 2 = 1 then T.hash y (T.node l (T.above l))
    else T.hash (T.node l (T.above l)) y) : T.Matched (path ++ [y]) (l + 1) := by
  obtain ⟨rfl, hf⟩ := h
  refine ⟨by simp, ?_⟩
  rw [foldPath_append, hf, show T.above (path.length + 1) = _ from div_succ .., ← above, hy]

/-- A zero bit: the slot of the level is the left sibling. -/
lemma Climbing.step (h : T.Climbing M (D + 2 ^ s.level) s) (dvd : 2 ^ (s.level + 1) ∣ D)
  (inside : D + 2 ^ s.level < T.leaves.length) : ∃ left,
  M.inner s.level = some left ∧ T.Climbing M D (s.combine T.hash M.matchlevel left) := by
  have up : T.above (s.level + 1) = T.above s.level / 2 := div_succ ..
  have even := div_even dvd
  have here := h.here
  have hcur := h.top
  have hdiv := Nat.div_mul_le_self (D + 2 ^ s.level) (2 ^ s.level)
  rw [add_div] at here hcur hdiv
  have top : T.hash (T.node s.level (D / 2 ^ s.level)) s.h =
    T.node (s.level + 1) (D / 2 ^ (s.level + 1)) := by
    have inside := lt_calcTreeWidth.mpr (hdiv.trans_lt inside)
    rw [node, node, calcHash, mul_comm, ← even, if_pos inside, hcur]
    rfl
  refine ⟨_, h.slots _ _ ((bit_add dvd).mpr (.inl ⟨rfl, rfl⟩)),
    fun k i hb => h.slots k i ((bit_add dvd).mpr (.inr hb)), top, ?_, fun hm => ?_, fun missed => ?_⟩
  · simp only [combine, Bool.or_eq_true, beq_iff_eq]
    cases hm : s.matchh with
    | true =>
      have := here.mp hm
      simp only [true_or, true_iff]
      omega
    | false =>
      have := here.not.mp (by simp [hm])
      rw [(h.waits hm).here dvd]
      simp only [Bool.false_eq_true, false_or]
      omega
  · simp only [combine] at hm ⊢
    cases carried : s.matchh with
    | true =>
      have here := here.mp carried
      refine (h.found carried).push ?_
      rw [here, if_pos (by omega), ← hcur, top]
      congr 1
      omega
    | false =>
      have hml : M.matchlevel = some s.level := by simpa [carried] using hm
      have here := ((h.waits carried).here dvd).mp hml
      simp only [hml, beq_self_eq_true, if_true, Bool.false_eq_true, if_false]
      refine ((h.waits carried).matched _ hml).push ?_
      rw [here, if_neg (by omega), top, ← div_succ]
  · obtain ⟨hm, other⟩ : s.matchh = false ∧ ¬ M.matchlevel = some s.level := by
      simpa [combine] using missed
    simpa [combine, hm, other] using (h.waits hm).rest dvd other

/-- The climb ends at the first bit of `count`, and finds every slot on its way. -/
lemma propagate_spec (h : T.Climbing M D s) (dvd : 2 ^ s.level ∣ D) (hc : c = D + 2 ^ s.level)
  (small : c < 2 ^ 32) (inside : D < T.leaves.length) :
  ∃ D' s', propagate T.hash M c s = some s' ∧ s.level ≤ s'.level ∧ c = D' + 2 ^ s'.level ∧
    2 ^ (s'.level + 1) ∣ D' ∧ T.Climbing M D' s' := by
  induction D using Nat.strong_induction_on generalizing s with
  | _ D ih =>
    rw [propagate.eq_def, if_pos (level_lt (by omega) small)]
    rcases dvd_cases dvd with up | ⟨D', rfl, up⟩
    · exact ⟨D, s, if_pos (hc ▸ (testBit_of_dvd up).2), le_rfl, hc, up, h⟩
    obtain ⟨left, slot, next⟩ := h.step up inside
    have pos := Nat.two_pow_pos s.level
    have hc : c = D' + 2 ^ (s.level + 1) := by rw [hc, pow_succ, mul_two, add_assoc]
    obtain ⟨D'', s', ends, le, rest⟩ := ih D' (by omega) next up hc (by omega)
    refine ⟨D'', s', ?_, (Nat.le_succ _).trans le, rest⟩
    rw [if_neg, slot]
    · exact ends
    · simp [hc, testBit_of_dvd (dvd_add up dvd_rfl)]

lemma Read.processLeaf {s : Computation α} (h : T.Read c s) (hc : c < T.leaves.length)
  (small : T.leaves.length < 2 ^ 32) :
  ∃ s', processLeaf T.hash T.pos s T.leaves[c] = some s' ∧ T.Read (c + 1) s' := by
  have start : T.Climbing s.toInner c ⟨0, T.leaves[c], c == T.pos, s.path⟩ := by
    refine ⟨h.slots, ?_, ?_, fun here => ?_, fun _ => h.waits⟩
    · rw [pow_zero, Nat.div_one]
      exact (getD_eq_getElem _ _ hc).symm
    · rw [above, pow_zero, Nat.div_one, Nat.div_one, beq_iff_eq, eq_comm]
    · have here : c = T.pos := by simpa using here
      rw [h.waits.quiet (Option.eq_none_iff_forall_ne_some.mpr fun k hk =>
        above_ne here.le ((h.waits.level k).mp hk) rfl)]
      exact ⟨rfl, by rw [above, pow_zero, Nat.div_one, foldPath]⟩
  obtain ⟨D, t, ends, -, hD, dvd, climbed⟩ :=
    propagate_spec start (one_dvd c) (show c + 1 = c + 2 ^ 0 from rfl) (by omega) hc
  refine ⟨⟨s.store t, c + 1, t.path⟩, ?_, rfl, fun k i hb => ?_, ?_⟩
  · rw [MerklePath.processLeaf, h.count, Nat.mod_eq_of_lt (by omega), ends]
    rfl
  · rw [hD, bit_add dvd] at hb
    rcases hb with ⟨rfl, rfl⟩ | hb
    · exact climbed.top ▸ update_self ..
    · refine (update_of_ne ?_ ..).trans (climbed.slots k i hb)
      rintro rfl
      exact not_bit dvd hb
  · rw [hD]
    cases hm : t.matchh with
    | true =>
      have here := climbed.here.mp hm
      have level k : (s.store t).matchlevel = some k ↔ k = t.level := by
        simp [Inner.store, hm, eq_comm]
      refine ⟨fun k => ?_, fun k hk => ?_, fun none => ?_⟩
      · rw [level, bit_add dvd, or_iff_left]
        · exact ⟨fun hk => ⟨hk, hk ▸ here⟩, And.left⟩
        intro hb
        refine above_ne ?_ hb rfl
        rw [← Nat.div_mul_cancel (dvd_lower dvd), ← here]
        exact Nat.div_mul_le_self ..
      · exact (level k).mp hk ▸ climbed.found hm
      · simp [Inner.store, hm] at none
    | false =>
      refine (climbed.waits hm).of_bits (by simp [Inner.store, hm]) fun k => ?_
      rw [bit_add dvd, or_iff_right]
      rintro ⟨rfl, here⟩
      rw [climbed.here.mpr here] at hm
      cases hm

/-- The leaves that are left are read. -/
lemma Read.foldlM {s : Computation α} (h : T.Read c s) (small : T.leaves.length < 2 ^ 32)
  (hc : c ≤ T.leaves.length) :
  ∃ s', (T.leaves.drop c).foldlM (MerklePath.processLeaf T.hash T.pos) s = some s' ∧
    T.Read T.leaves.length s' := by
  induction hd : T.leaves.length - c generalizing c s with
  | zero =>
    obtain rfl : c = T.leaves.length := by omega
    rw [drop_length]
    exact ⟨s, rfl, h⟩
  | succ rest ih =>
    have hc : c < T.leaves.length := by omega
    obtain ⟨s', ok, read⟩ := h.processLeaf hc small
    obtain ⟨s'', oks, all⟩ := ih read hc (by omega)
    refine ⟨s'', ?_, all⟩
    rw [drop_eq_getElem_cons hc, foldlM_cons, ok]
    exact oks

variable [DecidableEq α]

/-- The sweep ends at the root. `count` is the number of leaves, rounded up to a full node of the
level. -/
lemma sweep_spec (small : T.leaves.length ≤ 2 ^ 31) (rounds : ℕ) (h : T.Climbing M D s)
  (dvd : 2 ^ (s.level + 1) ∣ D) (hc : c = D + 2 ^ s.level) (inside : D < T.leaves.length)
  (all : T.leaves.length ≤ c) (more : 2 ^ s.level < 2 * T.leaves.length)
  (enough : 32 ≤ rounds + s.level) : ∃ path, sweep T.hash M rounds c s = some path ∧
    foldPath T.hash (T.node 0 T.pos) path T.pos = (computeMerkleRoot T.hash T.null T.leaves).1 := by
  have pos := T.pos_lt
  induction rounds generalizing D c s with
  | zero =>
    have : s.level < 32 := (Nat.pow_lt_pow_iff_right one_lt_two).mp (more.trans_le (by omega))
    omega
  | succ rounds ih =>
    have double := pow_succ' 2 s.level
    have hdiv : (D + 2 ^ s.level) / 2 ^ s.level * 2 ^ s.level = D + 2 ^ s.level :=
      Nat.div_mul_cancel (dvd_add (dvd_lower dvd) dvd_rfl)
    rw [add_div] at hdiv
    rw [sweep]
    by_cases last : D = 0
    · subst last
      rw [zero_add] at hc
      refine ⟨s.path, if_pos hc, ?_⟩
      obtain ⟨-, root⟩ :=
        calcHash_calcHeight T.hash T.null (length_pos_iff.mp (Nat.zero_lt_of_lt pos))
      rw [calcHeight_eq (hc ▸ all) more] at root
      have here : T.above s.level = 0 := Nat.div_eq_of_lt (by omega)
      rw [(h.found (h.here.mpr (by rw [here, Nat.zero_div]))).2, here]
      exact root
    · have two := Nat.le_of_dvd (Nat.pos_of_ne_zero last) dvd
      have near : T.above s.level < D / 2 ^ s.level + 1 := by
        rw [above, Nat.div_lt_iff_lt_mul (Nat.two_pow_pos _)]
        omega
      have top : T.hash s.h s.h = T.node (s.level + 1) (D / 2 ^ (s.level + 1)) := by
        rw [node, calcHash, mul_comm, ← div_even dvd, if_neg, h.top]
        · rfl
        · rw [lt_calcTreeWidth]
          omega
      have next : T.Climbing M D ⟨s.level + 1, T.hash s.h s.h, s.matchh,
        if s.matchh then s.path ++ [s.h] else s.path⟩ := by
        refine ⟨h.slots, top, h.here.trans ?_, fun hm => ?_, fun hm => ?_⟩
        · have up : T.above (s.level + 1) = T.above s.level / 2 := div_succ ..
          have even := div_even dvd
          simp only
          omega
        · rw [if_pos hm]
          refine (h.found hm).push ?_
          rw [h.here.mp hm, ← h.top, ite_self, top, ← div_succ]
        · simpa [show s.matchh = false from hm] using h.waits hm
      have grown : c + 2 ^ s.level = D + 2 ^ (s.level + 1) := by omega
      obtain ⟨D', s', ends, le, hc', dvd', climbed⟩ :=
        propagate_spec next dvd grown (by omega) inside
      have le' : 2 ^ (s.level + 1) ≤ 2 ^ s'.level := Nat.pow_le_pow_right two_pos le
      obtain ⟨path, ok, root⟩ := ih climbed dvd' hc' (by omega) (by omega) (by omega)
        (by simp only at le; omega)
      refine ⟨path, ?_, root⟩
      rw [if_neg (by omega), Nat.mod_eq_of_lt (by omega)]
      dsimp only
      rw [ends]
      exact ok

end Target

/-- A Merkle path leads from its leaf to the root. The computation succeeds: it reads no slot that
was not written, and none out of range. -/
theorem merklePath_correct [DecidableEq α] (hash : α → α → α) (null : α) (leaves : List α)
  (pos : ℕ) (hpos : pos < leaves.length) (small : leaves.length ≤ 2 ^ 31) :
  ∃ path, computeMerklePath hash leaves pos = some path ∧
    foldPath hash leaves[pos] path pos = (computeMerkleRoot hash null leaves).1 := by
  let T : Target α := ⟨hash, null, leaves, pos, hpos⟩
  have start : T.Read 0 ⟨⟨fun _ => none, none⟩, 0, []⟩ := by
    have empty k i : ¬ Bit 0 k i := by simp [Bit]
    exact ⟨rfl, fun k i hb => absurd hb (empty k i), ⟨by simp [empty], by simp, fun _ => rfl⟩⟩
  have small' : leaves.length < 2 ^ 32 := by omega
  obtain ⟨s, ok, count, slots, waits⟩ := start.foldlM small' (Nat.zero_le _)
  obtain ⟨D, l, first, hc, dvd⟩ := firstLevel_spec (Nat.zero_lt_of_lt hpos) small' 0 (one_dvd _)
  rw [show T.leaves.length = _ from hc] at slots waits
  have climbing : T.Climbing s.toInner D
    ⟨l, T.node l (D / 2 ^ l), s.matchlevel == some l, s.path⟩ := by
    refine ⟨fun k i hb => slots k i ((bit_add dvd).mpr (.inr hb)), rfl, ?_, fun hm => ?_, fun hm => ?_⟩
    · rw [beq_iff_eq, waits.here dvd]
    · exact waits.matched l (by simpa using hm)
    · exact waits.rest dvd (by simpa using hm)
  have pos := Nat.two_pow_pos l
  obtain ⟨path, swept, root⟩ := Target.sweep_spec small 32 climbing dvd hc (by simp only [T]; omega)
    le_rfl (by simp only [T]; omega) (Nat.le_add_right ..)
  refine ⟨path, ?_, getD_eq_getElem leaves null hpos ▸ root⟩
  rw [computeMerklePath, merkleComputation, if_neg (by omega)]
  rw [drop_zero] at ok
  change (foldlM (processLeaf T.hash T.pos) _ T.leaves).bind _ = _
  rw [ok, Option.bind_some, count]
  change (firstLevel leaves.length 0).bind _ = _
  rw [first, Option.bind_some, slots _ _ ((bit_add dvd).mpr (.inl ⟨rfl, rfl⟩))]
  exact swept

theorem merklePath_correct_three : ∃ path, computeMerklePath oddPair [2, 4, 6] 2 = some path ∧
  foldPath oddPair 6 path 2 = (computeMerkleRoot oddPair 0 [2, 4, 6]).1 :=
  merklePath_correct oddPair 0 [2, 4, 6] 2 (by decide) (by decide)

end MerklePath
