import Mathlib

/-!
# Sets ordered by rank

A finite set is kept as a list, and its elements are compared by a rank in a linear order.
-/

namespace Ranking

variable {K L : Type*} [LinearOrder L] {g : K} {set : List K}

/-- The last element of the set in the order of a comparison. -/
def greatest (less : K → K → Bool) : List K → Option K
  | [] => none
  | a :: rest =>
    match greatest less rest with
    | none => some a
    | some b => if less b a then some a else some b

/-- The comparison follows the rank. -/
def Follows (less : K → K → Bool) (rank : K → L) : Prop :=
  ∀ a b, less a b = true ↔ rank a < rank b

variable {less : K → K → Bool} {rank : K → L}

lemma Follows.eq_false (hf : Follows less rank) {a b : K} : less a b = false ↔ rank b ≤ rank a := by
  rw [← Bool.not_eq_true, hf a b, not_lt]

lemma greatest_eq_none (none_ : greatest less set = none) : set = [] := by
  cases set with
  | nil => rfl
  | cons a rest =>
    simp only [greatest] at none_
    split at none_
    · cases none_
    · split at none_ <;> cases none_

/-- Of two elements the comparison picks the better one: the greatest is not worse than any. -/
lemma greatest_best {R : K → K → Prop} (refl : ∀ a ∈ set, R a a)
  (pick : ∀ a ∈ set, ∀ b ∈ set, if less b a then R b a else R a b)
  (trans : ∀ a ∈ set, ∀ b ∈ set, ∀ c ∈ set, R a b → R b c → R a c)
  (hg : greatest less set = some g) : g ∈ set ∧ ∀ a ∈ set, R a g := by
  induction set generalizing g with
  | nil => cases hg
  | cons a rest ih =>
    cases later : greatest less rest with
    | none =>
      obtain rfl := greatest_eq_none later
      obtain rfl : a = g := by simpa [greatest] using hg
      simpa using refl
    | some b =>
      obtain ⟨hme, best⟩ := ih (fun a ma => refl a (.tail _ ma))
        (fun a ma b mb => pick a (.tail _ ma) b (.tail _ mb))
        (fun a ma b mb c mc => trans a (.tail _ ma) b (.tail _ mb) c (.tail _ mc)) later
      have first := pick a (.head _) b (.tail _ hme)
      simp only [greatest, later] at hg
      split_ifs at hg first with below
      · obtain rfl := Option.some.inj hg
        refine ⟨.head _, List.forall_mem_cons.mpr ⟨refl a (.head _), fun c mc => ?_⟩⟩
        exact trans c (.tail _ mc) b (.tail _ hme) a (.head _) (best c mc) first
      · obtain rfl := Option.some.inj hg
        exact ⟨.tail _ hme, List.forall_mem_cons.mpr ⟨first, best⟩⟩

lemma greatest_spec (hf : Follows less rank)
  (hg : greatest less set = some g) : g ∈ set ∧ ∀ a ∈ set, rank a ≤ rank g := by
  refine greatest_best (R := (rank · ≤ rank ·)) (fun _ _ => le_rfl) (fun a _ b _ => ?_)
    (fun _ _ _ _ _ _ => le_trans) hg
  split_ifs with below
  · exact ((hf b a).mp below).le
  · exact hf.eq_false.mp (Bool.not_eq_true _ ▸ below)

end Ranking
