import Mathlib

/-!
# Groups that stay while one of them is live

A collection whose elements belong to groups. A group without an element that is live is dropped as a
whole. Dropping such groups in between does not change what is left at the end, as long as nothing
comes back to life.
-/

namespace LiveGroups

open Multiset

variable {α β κ : Type*} [DecidableEq κ] {key : α → κ} {live : α → Bool} {key' : β → κ}
  {live' : β → Bool} {M : Multiset α} {f : α → β}

/-- An element of the group is live. -/
def Lives (key : α → κ) (live : α → Bool) (M : Multiset α) (group : κ) : Prop :=
  ∃ b ∈ M, key b = group ∧ live b = true

instance (group : κ) : Decidable (Lives key live M group) :=
  Multiset.decidableExistsMultiset

variable (key live) in
/-- Drop the groups in which nothing is live. -/
def purge (M : Multiset α) : Multiset α := M.filter fun a => Lives key live M (key a)

variable (key live) in
/-- The same for a list. -/
def purgeList (l : List α) : List α := l.filter fun a => Lives key live l (key a)

lemma purge_eq_self (all : ∀ a ∈ M, Lives key live M (key a)) : purge key live M = M :=
  filter_eq_self.mpr all

section
variable (hk : ∀ a, key' (f a) = key a) (hl : ∀ a, live' (f a) = live a)
include hk hl

omit [DecidableEq κ] in
lemma lives_map (group : κ) : Lives key' live' (M.map f) group ↔ Lives key live M group := by
  simp [Lives, hk, hl]

lemma purge_map : purge key' live' (M.map f) = (purge key live M).map f := by
  rw [purge, purge, filter_map]
  congr 1
  refine filter_congr fun a _ => ?_
  rw [Function.comp_apply, hk, lives_map hk hl]

lemma purgeList_map (l : List α) :
  purgeList key' live' (l.map f) = (purgeList key live l).map f := by
  rw [purgeList, purgeList, List.filter_map]
  congr 1
  refine List.filter_congr fun a _ => ?_
  rw [Function.comp_apply, hk, ← map_coe]
  exact decide_eq_decide.mpr (lives_map hk hl (key a))

end

/-- Whatever is live at the end was in a group that stayed. -/
lemma purge_filterMap_purge {f : α → Option β} (hk : ∀ a b, f a = some b → key' b = key a)
  (dies : ∀ a b, f a = some b → live' b = true → live a = true) :
  purge key' live' ((purge key live M).filterMap f) = purge key' live' (M.filterMap f) := by
  have lives : ∀ group, Lives key' live' (M.filterMap f) group → Lives key live M group := by
    rintro group ⟨c, hm, inGroup, live⟩
    obtain ⟨a, hma, eq⟩ := (mem_filterMap f _).mp hm
    exact ⟨a, hma, (hk a c eq).symm.trans inGroup, dies a c eq live⟩
  have same : ∀ group, Lives key' live' ((purge key live M).filterMap f) group ↔
    Lives key' live' (M.filterMap f) group := by
    refine fun group => ⟨?_, fun hs => ?_⟩
    · rintro ⟨c, hm, rest⟩
      obtain ⟨a, hma, eq⟩ := (mem_filterMap f _).mp hm
      exact ⟨c, (mem_filterMap f _).mpr ⟨a, mem_of_mem_filter hma, eq⟩, rest⟩
    obtain ⟨c, hm, inGroup, live⟩ := id hs
    obtain ⟨a, hma, eq⟩ := (mem_filterMap f _).mp hm
    have kept : a ∈ purge key _ M := mem_filter.mpr ⟨hma, hk a c eq ▸ inGroup ▸ lives group hs⟩
    exact ⟨c, (mem_filterMap f _).mpr ⟨a, kept, eq⟩, inGroup, live⟩
  have split : M.filterMap f = (purge key live M).filterMap f +
    (M.filter fun a => ¬ Lives key live M (key a)).filterMap f := by
    rw [← filterMap_add, purge, filter_add_not]
  have none : ((M.filter fun a => ¬ Lives key live M (key a)).filterMap f).filter
    (fun c => Lives key' live' (M.filterMap f) (key' c)) = 0 := by
    refine filter_eq_nil.mpr fun c hm hs => ?_
    obtain ⟨a, hma, eq⟩ := (mem_filterMap f _).mp hm
    exact (mem_filter.mp hma).2 (hk a c eq ▸ lives _ hs)
  calc purge key' live' ((purge key live M).filterMap f) = ((purge key live M).filterMap f).filter
          fun c => Lives key' live' (M.filterMap f) (key' c) :=
        filter_congr fun c _ => same (key' c)
    _ = (M.filterMap f).filter fun c => Lives key' live' (M.filterMap f) (key' c) := by
        conv_rhs => arg 2; rw [split]
        rw [filter_add, none, add_zero]

end LiveGroups
