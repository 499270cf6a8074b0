import Mathlib

/-!
# Trees from the depths of their leaves

The leaves of a full binary tree arrive from left to right, each with its depth. A stack holds what
waits for its right neighbour at each depth, the deepest in front. What arrives is combined with
what waits at its depth, and the result is handed to the depth above.
-/

namespace LeafStack

open List Option

variable {α β : Type} {combine : α → α → α} {value : β → α} {a : α} {depth bound : ℕ}
  {stack : List (Option α)} {calls : List (ℤ × β)}

inductive LeafTree (β : Type)
  | leaf (b : β)
  | node (left right : LeafTree β)

open LeafTree

/-- The leaves with their depths, where the root has the given one. -/
def LeafTree.leaves (depth : ℤ) : LeafTree β → List (ℤ × β)
  | leaf b => [(depth, b)]
  | node left right => left.leaves (depth + 1) ++ right.leaves (depth + 1)

/-- The right part arrives last and comes first. -/
def LeafTree.fold (value : β → α) (combine : α → α → α) : LeafTree β → α
  | leaf b => value b
  | node left right => combine (right.fold value combine) (left.fold value combine)

def place (a : α) (depth : ℕ) (stack : List (Option α)) : List (Option α) :=
  some a :: (replicate (depth - stack.length) none ++ stack.drop (stack.length - depth))

def combineUp (combine : α → α → α) : α → ℕ → List (Option α) → Option (List (Option α))
  | a, depth, some left :: rest =>
    if rest.length = depth then
      if depth = 0 then none else combineUp combine (combine a left) (depth - 1) rest
    else some (place a depth (some left :: rest))
  | a, depth, stack => some (place a depth stack)

/-- `none` when a deeper level is unfinished, or the root has a neighbour. -/
def push (combine : α → α → α) (a : α) (depth : ℕ) (stack : List (Option α)) :
  Option (List (Option α)) :=
  if depth + 1 < stack.length then none else combineUp combine a depth stack

def pushCall (bound : ℕ) (value : β → α) (combine : α → α → α) (stack : List (Option α))
  (call : ℤ × β) : Option (List (Option α)) :=
  if 0 ≤ call.1 ∧ call.1 ≤ bound then push combine (value call.2) call.1.toNat stack else none

def pushAll (bound : ℕ) (value : β → α) (combine : α → α → α) (calls : List (ℤ × β)) :
  Option (List (Option α)) :=
  calls.foldlM (pushCall bound value combine) []

/-- There is nothing, or one tree. -/
def complete : List (Option α) → Bool
  | [] | [some _] => true
  | _ => false

lemma combineUp_short (hs : stack.length ≤ depth) :
  combineUp combine a depth stack = some (place a depth stack) := by
  match stack with
  | [] | none :: _ => rfl
  | some left :: rest =>
    rw [combineUp, if_neg]
    simp only [length_cons] at hs
    omega

lemma place_short (hs : stack.length ≤ depth) :
  place a depth stack = some a :: (replicate (depth - stack.length) none ++ stack) := by
  rw [place, Nat.sub_eq_zero_of_le hs, drop_zero]

lemma place_none (hs : stack.length ≤ depth) :
  place a depth (none :: stack) = place a depth stack := by
  rw [place_short hs]
  rcases hs.eq_or_lt with eq | less
  · simp [place, eq]
  · have split : depth - stack.length = depth - (stack.length + 1) + 1 := by omega
    rw [place_short (by simpa using less), split, replicate_succ', length_cons]
    simp

lemma combineUp_replicate (k : ℕ) (hs : k + stack.length ≤ depth + 1) :
  combineUp combine a depth (replicate k none ++ stack) = combineUp combine a depth stack := by
  induction k with
  | zero => rfl
  | succ k ih =>
    have shorter : (replicate k none ++ stack).length ≤ depth := by
      rw [length_append, length_replicate]
      omega
    rw [replicate_succ, cons_append, ← ih (by omega), combineUp_short shorter, ← place_none shorter]
    rfl

lemma foldlM_leaves (t : LeafTree β) (hs : stack.length ≤ depth + 1)
  (hb : ∀ x ∈ t.leaves depth, x.1 ≤ bound) :
  (t.leaves depth).foldlM (pushCall bound value combine) stack
    = push combine (t.fold value combine) depth stack := by
  induction t generalizing depth stack with
  | leaf b =>
    have low := hb (depth, b) (mem_singleton_self _)
    simp [LeafTree.leaves, pushCall, LeafTree.fold, low]
  | node left right ihl ihr =>
    obtain ⟨boundedL, boundedR⟩ := forall_mem_append.mp hb
    have length : (replicate (depth + 1 - stack.length) none ++ stack).length = depth + 1 := by
      rw [length_append, length_replicate]
      omega
    have first := @ihl (depth + 1) stack (by omega) boundedL
    rw [push, if_neg (by omega), combineUp_short hs, place_short hs] at first
    have second := @ihr (depth + 1) (some (left.fold value combine) ::
      (replicate (depth + 1 - stack.length) none ++ stack)) (by rw [length_cons, length]) boundedR
    rw [push, if_neg (by rw [length_cons, length]; omega), combineUp, if_pos length,
      if_neg (Nat.succ_ne_zero _), Nat.add_sub_cancel, combineUp_replicate _ (by omega)] at second
    rw [push, if_neg (by omega), LeafTree.leaves, foldlM_append]
    exact (congrArg (· >>= _) first).trans second

theorem pushAll_leaves (t : LeafTree β) (hb : ∀ x ∈ t.leaves 0, x.1 ≤ bound) :
  pushAll bound value combine (t.leaves 0) = some [some (t.fold value combine)] := by
  rw [← Nat.cast_zero] at hb ⊢
  exact foldlM_leaves t (Nat.zero_le _) hb

variable {γ : Type} {f : γ → α} {join : γ → γ → γ}

lemma combineUp_map (hom : ∀ a b, f (join a b) = combine (f a) (f b)) (a : γ)
  (stack : List (Option γ)) : (combineUp join a depth stack).map (map (Option.map f))
    = combineUp combine (f a) depth (stack.map (Option.map f)) := by
  have placed : ∀ s : List (Option γ), (place a depth s).map (Option.map f)
    = place (f a) depth (s.map (Option.map f)) := by
    simp [place, map_drop]
  induction stack generalizing a depth with
  | nil => exact congrArg some (placed [])
  | cons entry rest ih =>
    cases entry with
    | none => exact congrArg some (placed (none :: rest))
    | some left =>
      rw [combineUp, map_cons, map_some, combineUp, length_map]
      split
      · split
        · rfl
        · rw [ih, hom]
          simp [place, map_drop]
      · exact congrArg some (placed (some left :: rest))

lemma pushAll_map {embed : β → γ} (hom : ∀ a b, f (join a b) = combine (f a) (f b))
  (calls : List (ℤ × β)) : (pushAll bound embed join calls).map (map (Option.map f))
    = pushAll bound (f ∘ embed) combine calls := by
  suffices run : ∀ stack, (calls.foldlM (pushCall bound embed join) stack).map (map (Option.map f))
    = calls.foldlM (pushCall bound (f ∘ embed) combine) (stack.map (Option.map f)) from run []
  induction calls with
  | nil => exact fun stack => rfl
  | cons call calls ih =>
    intro stack
    have step : (pushCall bound embed join stack call).map (map (Option.map f))
      = pushCall bound (f ∘ embed) combine (stack.map (Option.map f)) call := by
      simp only [pushCall, push, length_map, Function.comp]
      split
      · split
        · rfl
        · exact combineUp_map hom _ _
      · rfl
    rw [foldlM_cons, foldlM_cons, ← step]
    cases pushCall bound embed join stack call with
    | none => rfl
    | some next => exact ih next

/-- The leaves of the trees that wait. -/
def pending : List (Option (LeafTree β)) → List (ℤ × β)
  | [] => []
  | t :: rest => pending rest ++ t.elim [] (LeafTree.leaves rest.length)

variable {t : LeafTree β} {trees after : List (Option (LeafTree β))}

lemma pending_place (hs : trees.length ≤ depth) :
  pending (place t depth trees) = pending trees ++ t.leaves depth := by
  have skip : ∀ k, pending (replicate k none ++ trees) = pending trees := by
    intro k
    induction k with
    | zero => rfl
    | succ k ih => simpa [replicate_succ, pending] using ih
  rw [place_short hs, pending, skip]
  simp [hs]

lemma pending_combineUp (hs : trees.length ≤ depth + 1)
  (hp : combineUp (fun right left => node left right) t depth trees = some after) :
  pending after = pending trees ++ t.leaves depth := by
  induction trees generalizing t depth with
  | nil =>
    cases hp
    exact pending_place (by simp)
  | cons entry rest ih =>
    have low : rest.length ≤ depth := by simpa using hs
    cases entry with
    | none =>
      cases hp
      rw [place_none low, pending_place low]
      simp [pending]
    | some left =>
      rw [combineUp] at hp
      split at hp
      · next eq =>
        split at hp
        · cases hp
        · have above : ((depth - 1 : ℕ) : ℤ) + 1 = depth := by omega
          rw [ih (by omega) hp, leaves, above, pending, eq, append_assoc]
          rfl
      · cases hp
        exact pending_place (by rw [length_cons]; omega)

lemma pending_pushAll
  (hp : pushAll bound leaf (fun right left => .node left right) calls = some after) :
  pending after = calls ∧ ∀ call ∈ calls, call.1 ≤ bound := by
  suffices run : ∀ trees,
    calls.foldlM (pushCall bound leaf fun right left => .node left right) trees
      = some after → pending after = pending trees ++ calls ∧
      ∀ call ∈ calls, call.1 ≤ bound from run [] hp
  clear hp
  induction calls with
  | nil =>
    rintro trees ⟨⟩
    simp
  | cons call calls ih =>
    intro trees hp
    rw [foldlM_cons] at hp
    obtain ⟨next, step, hp⟩ := bind_eq_some_iff.mp hp
    obtain ⟨eq, hb⟩ := ih next hp
    rw [pushCall, push] at step
    split_ifs at step with low hf
    have placed := pending_combineUp (by omega) step
    rw [Int.toNat_of_nonneg low.1] at placed
    exact ⟨by rw [eq, placed, append_assoc]; rfl, forall_mem_cons.mpr ⟨low.2, hb⟩⟩

/-- What is complete in the end is a tree whose leaves were given from left to right. -/
theorem complete_iff : (∃ stack, pushAll bound value combine calls = some stack ∧
    complete stack = true) ↔
  calls = [] ∨ ∃ t : LeafTree β, (∀ x ∈ t.leaves 0, x.1 ≤ bound) ∧ t.leaves 0 = calls := by
  constructor
  · rintro ⟨stack, pushed, hd⟩
    have mapped : (pushAll bound leaf (fun right left => .node left right) calls).map
      (map (Option.map (fold value combine))) = some stack :=
      (pushAll_map (fun _ _ => rfl) calls).trans pushed
    obtain ⟨trees, hf, rfl⟩ := map_eq_some_iff.mp mapped
    obtain ⟨rfl, hb⟩ := pending_pushAll hf
    match trees with
    | [] => exact .inl rfl
    | [some t] => exact .inr ⟨t, hb, rfl⟩
    | [none] | _ :: _ :: _ => simp [complete] at hd
  · rintro (rfl | ⟨t, hb, rfl⟩)
    · exact ⟨[], rfl, rfl⟩
    · exact ⟨_, pushAll_leaves t hb, rfl⟩

end LeafStack
