import Mathlib

/-!
# The signature cache

`CuckooCache::cache` of `cuckoocache.h`. An element has eight locations. `insert` takes one that may
be collected, or else moves the element there on to its own next location, until it runs out of
depth. Which locations may be collected, and how deep a chain goes, decides only which element is
lost: at most the last one of the chain.
-/

namespace CuckooCache

open Function Set

variable {E : Type} {n : ℕ}

/-- `FastRange32` of `util/fastrange.h`. -/
def fastRange32 (x : BitVec 32) (n : ℕ) [NeZero n] : Fin n :=
  ⟨x.toNat * n / 2 ^ 32,
    Nat.div_lt_of_lt_mul (Nat.mul_lt_mul_of_pos_right x.isLt (NeZero.pos n))⟩

/-- `bit_packed_atomic_flags`: a bit for each of so many elements, all set, if there is memory for
them. Its size in bytes is a `uint32_t` that can wrap around, and then there is none. -/
def bitPackedAtomicFlags (size : ℕ) : Option (Fin size → Bool) :=
  if size ≤ 8 * ((size + 7) % 2 ^ 32 / 8) then some fun _ => true else none

/-- To use flags without memory ends the program. -/
structure Cache (E : Type) (n : ℕ) where
  table : Fin n → E
  collectionFlags : Option (Fin n → Bool)
  epochFlags : Fin n → Bool
  epochHeuristicCounter : ℕ
  epochSize : ℕ
  depthLimit : ℕ

/-- `size`, at least 2. -/
def sizeFor (newSize : BitVec 32) : ℕ := max 2 newSize.toNat

instance (newSize : BitVec 32) : NeZero (sizeFor newSize) :=
  ⟨Nat.ne_of_gt (lt_of_lt_of_le Nat.two_pos (le_max_left _ _))⟩

/-- The depth limit is a logarithm in `float`, whatever that gives. -/
def setup [Inhabited E] (log2 : ℕ → ℕ) (newSize : BitVec 32) : Cache E (sizeFor newSize) :=
  let epochSize := max 1 (45 * sizeFor newSize % 2 ^ 32 / 100)
  { table := fun _ => default
    collectionFlags := bitPackedAtomicFlags (sizeFor newSize)
    epochFlags := fun _ => false
    epochHeuristicCounter := epochSize
    epochSize := epochSize
    depthLimit := log2 (sizeFor newSize) }

namespace Cache

variable (hash : Fin 8 → E → BitVec 32) (c : Cache E n)

def computeHashes [NeZero n] (e : E) (i : Fin 8) : Fin n := fastRange32 (hash i e) n

/-- Old elements may be collected and recent ones become old, when there are enough of these. -/
def epochCheck : Option (Cache E n) :=
  if c.epochHeuristicCounter ≠ 0 then
    some { c with epochHeuristicCounter := c.epochHeuristicCounter - 1 }
  else c.collectionFlags.map fun flags =>
    let epochUnusedCount := (List.finRange n).countP fun i => c.epochFlags i && !flags i
    if epochUnusedCount ≥ c.epochSize then
      { c with
        collectionFlags := some fun i => flags i || !c.epochFlags i
        epochFlags := fun _ => false
        epochHeuristicCounter := c.epochSize }
    else
      { c with
        epochHeuristicCounter :=
          max 1 (max (c.epochSize / 16) (c.epochSize - epochUnusedCount)) }

/-- The location after the last one; the second one if that is not among them. -/
def nextLoc (locs : Fin 8 → Fin n) (lastLoc : Option (Fin n)) : Fin n :=
  locs (Fin.ofNat 8 (1 + (List.finRange 8).findIdx fun i => some (locs i) = lastLoc))

/-- The loop of `insert` over the depth. -/
def displace [NeZero n] : ℕ → Cache E n → E → Option (Fin n) → Bool → Option (Cache E n)
  | 0, c, _, _, _ => some c
  | depth + 1, c, e, lastLoc, lastEpoch => c.collectionFlags.bind fun flags =>
    let locs := computeHashes hash e
    match (List.finRange 8).find? fun i => flags (locs i) with
    | some i =>
      some { c with
        table := update c.table (locs i) e
        collectionFlags := some (update flags (locs i) false)
        epochFlags := update c.epochFlags (locs i) lastEpoch }
    | none =>
      let loc := nextLoc locs lastLoc
      displace depth
        { c with
          table := update c.table loc e
          epochFlags := update c.epochFlags loc lastEpoch }
        (c.table loc) (some loc) (c.epochFlags loc)

variable [DecidableEq E] [NeZero n]

def insert (e : E) : Option (Cache E n) := c.epochCheck.bind fun c =>
  let locs := computeHashes hash e
  match (List.finRange 8).find? fun i => c.table (locs i) = e with
  | some i => c.collectionFlags.map fun flags =>
    { c with
      collectionFlags := some (update flags (locs i) false)
      epochFlags := update c.epochFlags (locs i) true }
  | none => displace hash c.depthLimit c e none true

def contains (e : E) (erase : Bool) : Option (Bool × Cache E n) :=
  let locs := computeHashes hash e
  match (List.finRange 8).find? fun i => c.table (locs i) = e with
  | some i =>
    if erase then c.collectionFlags.map fun flags =>
      (true, { c with collectionFlags := some (update flags (locs i) true) })
    else some (true, c)
  | none => some (false, c)

end Cache

inductive Call (E : Type) where
  | insert (e : E)
  | contains (e : E) (erase : Bool)

def Cache.run [DecidableEq E] [NeZero n] (hash : Fin 8 → E → BitVec 32) (c : Cache E n) :
  Call E → Option (Cache E n)
  | .insert e => c.insert hash e
  | .contains e erase => (c.contains hash e erase).map Prod.snd

/-- There is memory for the flags. -/
abbrev Cache.Flagged (c : Cache E n) : Prop := c.collectionFlags.isSome = true

lemma epochCheck_spec {c : Cache E n} (flagged : c.Flagged) :
  ∃ c', c.epochCheck = some c' ∧ c'.Flagged ∧ c'.table = c.table := by
  obtain ⟨flags, memory⟩ := Option.isSome_iff_exists.mp flagged
  rw [Cache.epochCheck, memory]
  split
  · exact ⟨_, rfl, rfl, rfl⟩
  refine ⟨_, rfl, ?_⟩
  dsimp only
  split <;> exact ⟨rfl, rfl⟩

lemma range_update (table : Fin n → E) (l : Fin n) (e : E) :
  range (update table l e) ⊆ insert e (range table) ∧
    insert e (range table) ⊆ insert (table l) (range (update table l e)) := by
  constructor
  · rintro _ ⟨l', rfl⟩
    by_cases here : l' = l
    · exact .inl (by rw [here, update_self])
    · exact .inr ⟨l', (update_of_ne here ..).symm⟩
  · rintro x (rfl | ⟨l', rfl⟩)
    · exact .inr ⟨l, update_self ..⟩
    · by_cases here : l' = l
      · exact .inl (by rw [here])
      · exact .inr ⟨l', update_of_ne here ..⟩

open Cache (computeHashes nextLoc)

variable [Inhabited E] [NeZero n] {hash : Fin 8 → E → BitVec 32} {c : Cache E n} {e : E}

/-- An element is at a location of its own, and nowhere else. -/
structure Placed (hash : Fin 8 → E → BitVec 32) (table : Fin n → E) : Prop where
  home : ∀ l, table l ≠ default → ∃ i, computeHashes hash (table l) i = l
  once : ∀ l l', table l = table l' → table l ≠ default → l = l'

/-- An element that is not stored is put to one of its locations, and what was there is not stored
any more. -/
lemma Placed.put {table : Fin n → E} (placed : Placed hash table)
  (absent : e ≠ default → e ∉ range table) (i : Fin 8) : let l := computeHashes hash e i
  Placed hash (update table l e) ∧ (table l ≠ default → table l ∉ range (update table l e)) := by
  intro l
  have other : ∀ l' ≠ l, update table l e l' = table l' := fun l' ne => update_of_ne ne ..
  have self : update table l e l = e := update_self ..
  have alone : ∀ l' ≠ l, e ≠ default → e ≠ table l' := fun l' _ named same =>
    absent named ⟨l', same.symm⟩
  refine ⟨⟨fun l' named => ?_, fun l₁ l₂ same named => ?_⟩, ?_⟩
  · by_cases here : l' = l
    · exact ⟨i, by rw [here, self]⟩
    · rw [other l' here] at named ⊢
      exact placed.home l' named
  · by_cases h₁ : l₁ = l <;> by_cases h₂ : l₂ = l
    · rw [h₁, h₂]
    · rw [h₁, self, other l₂ h₂] at same
      rw [h₁, self] at named
      exact absurd same (alone l₂ h₂ named)
    · rw [h₂, self, other l₁ h₁] at same
      rw [other l₁ h₁, same] at named
      exact absurd same.symm (alone l₁ h₁ named)
    · rw [other l₁ h₁, other l₂ h₂] at same
      rw [other l₁ h₁] at named
      exact placed.once l₁ l₂ same named
  · rintro named ⟨l', same⟩
    by_cases here : l' = l
    · rw [here, self] at same
      exact absent (same ▸ named) ⟨l, same.symm⟩
    · rw [other l' here] at same
      exact here (placed.once l' l same (same ▸ named))

/-- What a table may become: what is new in it is `e`, and one of `e` and the old elements may be
lost. -/
structure Inserted (hash : Fin 8 → E → BitVec 32) (e : E) (table table' : Fin n → E) : Prop where
  placed : Placed hash table'
  known : range table' ⊆ insert e (range table)
  kept : ∃ gone, insert e (range table) ⊆ insert gone (range table')

lemma displace_spec (depth : ℕ) {c : Cache E n} (flagged : c.Flagged) (lastLoc : Option (Fin n))
  (lastEpoch : Bool) (placed : Placed hash c.table) (absent : e ≠ default → e ∉ range c.table) :
  ∃ c', Cache.displace hash depth c e lastLoc lastEpoch = some c' ∧ c'.Flagged ∧
    Inserted hash e c.table c'.table := by
  induction depth generalizing c e lastLoc lastEpoch with
  | zero => exact ⟨c, rfl, flagged, placed, subset_insert _ _, e, subset_rfl⟩
  | succ depth ih =>
    obtain ⟨flags, memory⟩ := Option.isSome_iff_exists.mp flagged
    rw [Cache.displace, memory, Option.bind_some]
    dsimp only
    split
    · next i _ =>
      obtain ⟨fewer, kept⟩ := range_update c.table (computeHashes hash e i) e
      exact ⟨_, rfl, rfl, (placed.put absent i).1, fewer, _, kept⟩
    -- the element that is moved on is the next one to be inserted
    obtain ⟨placed', absent'⟩ := placed.put absent (Fin.ofNat 8 (1 + (List.finRange 8).findIdx
      fun i => some (computeHashes hash e i) = lastLoc))
    obtain ⟨fewer, kept⟩ := range_update c.table
      (nextLoc (computeHashes hash e) lastLoc) e
    obtain ⟨c', moved, flagged', placed'', known, gone, lost⟩ := @ih _ { c with
      table := update c.table (nextLoc (computeHashes hash e) lastLoc) e
      collectionFlags := some flags
      epochFlags := _ } rfl _ _ placed' absent'
    refine ⟨c', moved, flagged', placed'', known.trans (insert_subset ?_ fewer), gone,
      kept.trans lost⟩
    exact .inr ⟨_, rfl⟩

variable [DecidableEq E]

/-- The eight locations are where an element is found. -/
lemma find_eq_none (placed : Placed hash c.table)
  (none_ : (List.finRange 8).find? (fun i => c.table (computeHashes hash e i) = e) = none)
  (named : e ≠ default) : e ∉ range c.table := by
  rintro ⟨l, rfl⟩
  obtain ⟨i, home⟩ := placed.home l named
  have absent := List.find?_eq_none.mp none_ i (List.mem_finRange i)
  rw [home] at absent
  simp at absent

lemma insert_spec (flagged : c.Flagged) (placed : Placed hash c.table) (e : E) :
  ∃ c', c.insert hash e = some c' ∧ c'.Flagged ∧ Inserted hash e c.table c'.table := by
  obtain ⟨c', checked, flagged', same⟩ := epochCheck_spec flagged
  rw [← same] at placed ⊢
  rw [Cache.insert, checked, Option.bind_some]
  dsimp only
  split
  · obtain ⟨flags, memory⟩ := Option.isSome_iff_exists.mp flagged'
    rw [memory]
    exact ⟨_, rfl, rfl, placed, subset_insert _ _, e, subset_rfl⟩
  · next absent => exact displace_spec _ flagged' none true placed (find_eq_none placed absent)

variable (hash) in
omit [Inhabited E] in
lemma contains_spec (flagged : c.Flagged) (e : E) (erase : Bool) :
  ∃ r, c.contains hash e erase = some r ∧ r.2.Flagged ∧ r.2.table = c.table ∧
    (r.1 = true ↔ ∃ i, c.table (computeHashes hash e i) = e) := by
  obtain ⟨flags, memory⟩ := Option.isSome_iff_exists.mp flagged
  rw [Cache.contains, memory]
  split
  · next i found =>
    have there : ∃ i, c.table (computeHashes hash e i) = e :=
      ⟨i, by simpa using List.find?_some found⟩
    split
    · exact ⟨_, rfl, rfl, rfl, by simpa using there⟩
    · exact ⟨_, rfl, flagged, rfl, by simpa using there⟩
  · next absent => exact ⟨_, rfl, flagged, rfl, by simpa using absent⟩

/-- After any calls the elements are in place, and all of them have been inserted. -/
lemma run_placed (calls : List (Call E)) (flagged : c.Flagged) (placed : Placed hash c.table) :
  ∃ c', calls.foldlM (Cache.run hash) c = some c' ∧ c'.Flagged ∧ Placed hash c'.table ∧
    ∀ e ∈ range c'.table, e ∈ range c.table ∨ .insert e ∈ calls := by
  induction calls generalizing c with
  | nil => exact ⟨c, rfl, flagged, placed, fun e => .inl⟩
  | cons call calls ih =>
    rw [List.foldlM_cons]
    cases call with
    | insert e =>
      obtain ⟨c₁, first, flagged₁, inserted⟩ := insert_spec flagged placed e
      obtain ⟨c₂, later, flagged₂, placed₂, known⟩ := ih flagged₁ inserted.placed
      refine ⟨c₂, by rw [Cache.run, first]; exact later, flagged₂, placed₂, fun x stored => ?_⟩
      rcases known x stored with old | later
      · rcases inserted.known old with rfl | old
        · exact .inr (.head _)
        · exact .inl old
      · exact .inr (.tail _ later)
    | contains e erase =>
      obtain ⟨r, first, flagged₁, same, -⟩ := contains_spec hash flagged e erase
      obtain ⟨c₂, later, flagged₂, placed₂, known⟩ := ih flagged₁ (same ▸ placed)
      refine ⟨c₂, by rw [Cache.run, first]; exact later, flagged₂, placed₂, fun x stored => ?_⟩
      rw [same] at known
      exact (known x stored).imp_right (.tail _)

/-- Without memory for its flags the first use of a cache ends the program. -/
lemma setup_insert_none {log2 : ℕ → ℕ} {newSize : BitVec 32} (large : 2 ^ 32 - 8 < sizeFor newSize)
  (depth : 0 < log2 (sizeFor newSize)) (e : E) :
  (setup log2 newSize : Cache E _).insert hash e = none := by
  have high : sizeFor newSize < 2 ^ 32 := max_lt (by decide) newSize.isLt
  have memory : bitPackedAtomicFlags (sizeFor newSize) = none := if_neg (by omega)
  have waits : (setup (E := E) log2 newSize).epochHeuristicCounter ≠ 0 :=
    Nat.ne_of_gt (le_max_left 1 _)
  obtain ⟨limit, eq⟩ := Nat.exists_eq_succ_of_ne_zero depth.ne'
  rw [Cache.insert, Cache.epochCheck, if_pos waits, Option.bind_some]
  dsimp only
  split
  · exact congrArg (Option.map _) memory
  · simp only [setup, eq, Cache.displace, memory, Option.bind_none]

/-- **The cache does not lie.** Where the size leaves memory for the flags, after any calls on a new
cache `contains` finds only what was inserted, or the default element; every other stored element is
stored once, at one of its locations; one more `insert` loses at most one of them; and what
`contains` has found and marked as erasable it finds again. At a larger size no element can be
inserted. -/
theorem cache_sound (hash : Fin 8 → E → BitVec 32) (log2 : ℕ → ℕ) (newSize : BitVec 32) :
  (sizeFor newSize ≤ 2 ^ 32 - 8 → ∀ calls : List (Call E),
    ∃ c, calls.foldlM (Cache.run hash) (setup log2 newSize) = some c ∧
      (∀ e erase, ∃ r, c.contains hash e erase = some r ∧
        (r.1 = true → e = default ∨ .insert e ∈ calls)) ∧ Placed hash c.table ∧
      (∀ e, ∃ c' gone, c.insert hash e = some c' ∧ range c.table ⊆ insert gone (range c'.table)) ∧
      ∀ e c', c.contains hash e true = some (true, c') →
        ∃ c'', c'.contains hash e false = some (true, c'')) ∧
  (2 ^ 32 - 8 < sizeFor newSize → 0 < log2 (sizeFor newSize) →
    ∀ e : E, (setup log2 newSize).insert hash e = none) := by
  refine ⟨fun small calls => ?_, fun large depth e => setup_insert_none large depth e⟩
  have start : Placed hash (setup (E := E) log2 newSize).table :=
    ⟨fun l named => absurd rfl named, fun l l' _ named => absurd rfl named⟩
  have memory : (setup (E := E) log2 newSize).Flagged := by
    change (bitPackedAtomicFlags (sizeFor newSize)).isSome = true
    rw [bitPackedAtomicFlags, if_pos (by omega)]
    rfl
  obtain ⟨c, run, flagged, placed, known⟩ := run_placed calls memory start
  refine ⟨c, run, fun e erase => ?_, placed, fun e => ?_, fun e c' found => ?_⟩
  · obtain ⟨r, answer, -, -, there⟩ := contains_spec hash flagged e erase
    refine ⟨r, answer, fun found => ?_⟩
    obtain ⟨i, here⟩ := there.mp found
    rcases known e ⟨_, here⟩ with ⟨l, rfl⟩ | later
    · exact .inl rfl
    · exact .inr later
  · obtain ⟨c', inserted, -, -, -, gone, lost⟩ := insert_spec flagged placed e
    exact ⟨c', gone, inserted, (subset_insert _ _).trans lost⟩
  · obtain ⟨r, answer, flagged', same, there⟩ := contains_spec hash flagged e true
    obtain rfl := Option.some.inj (found.symm.trans answer)
    obtain ⟨r', again, -, -, there'⟩ := contains_spec hash flagged' e false
    rw [same] at there'
    exact ⟨r'.2, again.trans (by rw [← there'.mpr (there.mp rfl)])⟩

/-- Both elements have all their locations in common. -/
theorem cache_sound_twoSlots :
  ∃ c : Cache ℕ 2, [Call.insert 5, .insert 9, .contains 5 true].foldlM (Cache.run fun _ _ => 0)
      (setup (fun _ => 1) 2) = some c ∧ Placed (fun _ _ => 0) c.table ∧
    ∃ c' gone, c.insert (fun _ _ => 0) 7 = some c' ∧
      range c.table ⊆ insert gone (range c'.table) := by
  obtain ⟨c, run, -, placed, kept, -⟩ := (cache_sound (fun _ _ => 0) (fun _ => 1) 2).1 (by decide)
    [Call.insert 5, .insert 9, .contains 5 true]
  exact ⟨c, run, placed, kept 7⟩

/-- The largest size leaves no memory for the flags. -/
theorem cache_insert_outside :
  (setup (fun _ => 31) 0xffffffff : Cache ℕ _).insert (fun _ _ => 0) 5 = none :=
  setup_insert_none (by decide) (by decide) 5

end CuckooCache
