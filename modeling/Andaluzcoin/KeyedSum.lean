import Mathlib

/-!
# Sums by key

Elements of a list that have keys, the sums over those of one key, and maps that hold such sums.
-/

namespace KeyedSum

open List

section
variable {α κ M : Type*} [DecidableEq κ] [AddCommMonoid M] (key : α → κ) (f : α → M) {l : List α}

/-- The sum over the elements with a key. -/
def groupSum (l : List α) (k : κ) : M := ((l.filter fun a => key a = k).map f).sum

lemma groupSum_cons (a : α) (l : List α) (k : κ) :
  groupSum key f (a :: l) k = (if key a = k then f a else 0) + groupSum key f l k := by
  by_cases hs : key a = k
  · simp [groupSum, hs]
  · simp [groupSum, hs]

lemma groupSum_perm {l' : List α} (perm : l.Perm l') (k : κ) :
  groupSum key f l k = groupSum key f l' k :=
  ((perm.filter _).map f).sum_eq

lemma sum_groupSum {keys : Finset κ} (all : ∀ a ∈ l, key a ∈ keys) :
  ∑ k ∈ keys, groupSum key f l k = (l.map f).sum := by
  induction l with
  | nil => simp [groupSum]
  | cons a l ih =>
    have first := all a (.head _)
    have later := ih fun b hm => all b (.tail a hm)
    simp only [groupSum_cons, Finset.sum_add_distrib, later, Finset.sum_ite_eq, first, if_true,
      map_cons, sum_cons]

end

section
variable {α M : Type*} [DecidableEq α] [AddCommMonoid M] [PartialOrder M] [IsOrderedAddMonoid M]

lemma sum_toFinset_le {f : α → M} (hn : ∀ a, 0 ≤ f a) (l : List α) :
  ∑ a ∈ l.toFinset, f a ≤ (l.map f).sum := by
  induction l with
  | nil => simp
  | cons a l ih =>
    rw [toFinset_cons, map_cons, sum_cons]
    by_cases again : a ∈ l.toFinset
    · rw [Finset.insert_eq_of_mem again]
      exact ih.trans (le_add_of_nonneg_left (hn a))
    · rw [Finset.sum_insert again]
      exact add_le_add_right ih (f a)

end

variable {κ β M : Type*} [DecidableEq κ] [AddCommMonoid M] {m : AList fun _ : κ => β}

lemma sum_entries (m : AList fun _ : κ => β) (f : β → M) :
  (m.entries.map fun entry => f entry.2).sum = ∑ k ∈ m.keys.toFinset, (m.lookup k).elim 0 f := by
  rw [sum_toFinset _ m.keys_nodup, AList.keys, keys, map_map]
  congr 1
  refine map_congr_left fun entry hm => ?_
  have found : m.lookup entry.1 = some entry.2 := AList.mem_lookup_iff.mpr hm
  simp [found]

lemma entries_perm {m' : AList fun _ : κ => β} (hs : ∀ k, m.lookup k = m'.lookup k) :
  m.entries.Perm m'.entries :=
  lookup_ext m.nodupKeys m'.nodupKeys fun k v => by
    change v ∈ m.lookup k ↔ v ∈ m'.lookup k
    rw [hs]

lemma mem_keys_iff {k : κ} : k ∈ m.keys ↔ (m.lookup k).isSome := by
  rw [AList.lookup_isSome, AList.mem_keys]

end KeyedSum
