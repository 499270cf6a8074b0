import Andaluzcoin.LockTime

/-!
# Timelocks in miniscript

The type of a miniscript node, as `ComputeType` derives it from the types of its children, and the
monotone formula `IsSatisfiable` reads off the same tree. The letters `g`, `h`, `i` and `j` record
which kinds of timelock a node contains, and `k` promises that no way to satisfy the node needs two
kinds that a transaction cannot have together.
-/

namespace Miniscript

open LockTime List
open Finset (mem_union_left mem_union_right mem_union)

inductive Fragment
  | just0 | just1 | pkK | pkH | older | after | sha256 | hash256 | ripemd160 | hash160
  | wrapA | wrapS | wrapC | wrapD | wrapV | wrapJ | wrapN
  | andV | andB | orB | orC | orD | orI | andor | thresh | multi | multiA
  deriving DecidableEq

inductive MiniscriptContext | p2wsh | tapscript
  deriving DecidableEq

def maxPubkeysPerMultiA : ℕ := 999

/-- The properties of an expression, each by its letter. -/
abbrev ExprType := Finset Char

def mst (letters : String) : ExprType := letters.toList.toFinset

def ExprType.when (t : ExprType) (cond : Bool) : ExprType := if cond then t else ∅

def sanitizeType (e : ExprType) : Option ExprType :=
  let has letters : Bool := mst letters ⊆ e
  match ["K", "V", "B", "W"].countP has with
  | 0 => some ∅
  | 1 =>
    if (!has "z" || !has "o") && (!has "n" || !has "z") && (!has "n" || !has "W") &&
        (!has "V" || !has "d") && (!has "K" || has "u") && (!has "V" || !has "u") &&
        (!has "e" || !has "f") && (!has "e" || has "d") && (!has "V" || !has "e") &&
        (!has "d" || !has "f") && (!has "V" || has "f") && (!has "K" || has "s") &&
        (!has "z" || has "m") then some e
    else none
  | _ => none

/-- The sanity checks `ComputeType` begins with. -/
def argumentsFit (fragment : Fragment) (k dataSize nSubs nKeys : ℕ) (msCtx : MiniscriptContext) :
  Bool :=
  (dataSize == match fragment with
    | .sha256 | .hash256 => 32
    | .ripemd160 | .hash160 => 20
    | _ => 0) &&
  (match fragment with
    | .older | .after => 1 ≤ k && k < 0x80000000
    | .multi | .multiA => 1 ≤ k && k ≤ nKeys
    | .thresh => 1 ≤ k && k ≤ nSubs
    | _ => k == 0) &&
  (nSubs == match fragment with
    | .andV | .andB | .orB | .orC | .orI | .orD => 2
    | .andor => 3
    | .wrapA | .wrapS | .wrapC | .wrapD | .wrapV | .wrapJ | .wrapN => 1
    | .thresh => nSubs
    | _ => 0) &&
  (match fragment with
    | .pkK | .pkH => nKeys == 1
    | .multi => 1 ≤ nKeys && nKeys ≤ Script.maxPubkeysPerMultisig && msCtx != .tapscript
    | .multiA => 1 ≤ nKeys && nKeys ≤ maxPubkeysPerMultiA && msCtx == .tapscript
    | _ => nKeys == 0)

/-- One side has a lock by height where the other has one by time. -/
def mixes (x y : ExprType) : Bool :=
  (mst "g" ⊆ x && mst "h" ⊆ y) || (mst "h" ⊆ x && mst "g" ⊆ y) ||
    (mst "i" ⊆ x && mst "j" ⊆ y) || (mst "j" ⊆ x && mst "i" ⊆ y)

def threshTimelocks (k : ℕ) (accTl t : ExprType) : ExprType :=
  (accTl ∪ t) ∩ mst "ghij" ∪
    (mst "k").when (mst "k" ⊆ accTl ∩ t && (k ≤ 1 || (k > 1 && !mixes accTl t)))

def threshType (subTypes : List ExprType) (k nSubs : ℕ) : ExprType :=
  -- Bdu, Wdu, Wdu, ...
  if subTypes.zipIdx.all fun t => mst (if t.2 = 0 then "Bdu" else "Wdu") ⊆ t.1 then
    let allE := subTypes.all (mst "e" ⊆ ·)
    let allM := subTypes.all (mst "m" ⊆ ·)
    let numS := subTypes.countP (mst "s" ⊆ ·)
    let args := (subTypes.map fun t => if mst "z" ⊆ t then 0 else if mst "o" ⊆ t then 1 else 2).sum
    mst "Bdu" ∪ (mst "z").when (args = 0) ∪ (mst "o").when (args = 1) ∪
      (mst "e").when (allE && numS = nSubs) ∪ (mst "m").when (allE && allM && numS ≥ nSubs - k) ∪
      (mst "s").when (numS ≥ nSubs - k + 1) ∪ subTypes.foldl (threshTimelocks k) (mst "k")
  else ∅

def fragmentType (fragment : Fragment) (x y z : ExprType) (subTypes : List ExprType) (k nSubs : ℕ)
  (msCtx : MiniscriptContext) : ExprType :=
  match fragment with
  | .pkK => mst "Konudemsxk"
  | .pkH => mst "Knudemsxk"
  | .older => (mst "g").when (k &&& sequenceLocktimeTypeFlag ≠ 0) ∪
      (mst "h").when (k &&& sequenceLocktimeTypeFlag = 0) ∪ mst "Bzfmxk"
  | .after => (mst "i").when (k ≥ locktimeThreshold) ∪ (mst "j").when (k < locktimeThreshold) ∪
      mst "Bzfmxk"
  | .sha256 | .ripemd160 | .hash256 | .hash160 => mst "Bonudmk"
  | .just1 => mst "Bzufmxk"
  | .just0 => mst "Bzudemsxk"
  | .wrapA => (mst "W").when (mst "B" ⊆ x) ∪ x ∩ mst "ghijk" ∪ x ∩ mst "udfems" ∪ mst "x"
  | .wrapS => (mst "W").when (mst "Bo" ⊆ x) ∪ x ∩ mst "ghijk" ∪ x ∩ mst "udfemsx"
  | .wrapC => (mst "B").when (mst "K" ⊆ x) ∪ x ∩ mst "ghijk" ∪ x ∩ mst "ondfem" ∪ mst "us"
  | .wrapD => (mst "B").when (mst "Vz" ⊆ x) ∪ (mst "o").when (mst "z" ⊆ x) ∪
      (mst "e").when (mst "f" ⊆ x) ∪ x ∩ mst "ghijk" ∪ x ∩ mst "ms" ∪
      (mst "u").when (msCtx = .tapscript) ∪ mst "ndx"
  | .wrapV => (mst "V").when (mst "B" ⊆ x) ∪ x ∩ mst "ghijk" ∪ x ∩ mst "zonms" ∪ mst "fx"
  | .wrapJ => (mst "B").when (mst "Bn" ⊆ x) ∪ (mst "e").when (mst "f" ⊆ x) ∪ x ∩ mst "ghijk" ∪
      x ∩ mst "oums" ∪ mst "ndx"
  | .wrapN => x ∩ mst "ghijk" ∪ x ∩ mst "Bzondfems" ∪ mst "ux"
  | .andV => (y ∩ mst "KVB").when (mst "V" ⊆ x) ∪ x ∩ mst "n" ∪ (y ∩ mst "n").when (mst "z" ⊆ x) ∪
      ((x ∪ y) ∩ mst "o").when (mst "z" ⊆ x ∪ y) ∪ x ∩ y ∩ mst "mz" ∪ (x ∪ y) ∩ mst "s" ∪
      (mst "f").when (mst "f" ⊆ y || mst "s" ⊆ x) ∪ y ∩ mst "ux" ∪ (x ∪ y) ∩ mst "ghij" ∪
      (mst "k").when (mst "k" ⊆ x ∩ y && !mixes x y)
  | .andB => (x ∩ mst "B").when (mst "W" ⊆ y) ∪ ((x ∪ y) ∩ mst "o").when (mst "z" ⊆ x ∪ y) ∪
      x ∩ mst "n" ∪ (y ∩ mst "n").when (mst "z" ⊆ x) ∪ (x ∩ y ∩ mst "e").when (mst "s" ⊆ x ∩ y) ∪
      x ∩ y ∩ mst "dzm" ∪
      (mst "f").when (mst "f" ⊆ x ∩ y || mst "sf" ⊆ x || mst "sf" ⊆ y) ∪ (x ∪ y) ∩ mst "s" ∪
      mst "ux" ∪ (x ∪ y) ∩ mst "ghij" ∪ (mst "k").when (mst "k" ⊆ x ∩ y && !mixes x y)
  | .orB => (mst "B").when (mst "Bd" ⊆ x && mst "Wd" ⊆ y) ∪
      ((x ∪ y) ∩ mst "o").when (mst "z" ⊆ x ∪ y) ∪
      (x ∩ y ∩ mst "m").when (mst "s" ⊆ x ∪ y && mst "e" ⊆ x ∩ y) ∪ x ∩ y ∩ mst "zse" ∪
      mst "dux" ∪ (x ∪ y) ∩ mst "ghij" ∪ x ∩ y ∩ mst "k"
  | .orD => (y ∩ mst "B").when (mst "Bdu" ⊆ x) ∪ (x ∩ mst "o").when (mst "z" ⊆ y) ∪
      (x ∩ y ∩ mst "m").when (mst "e" ⊆ x && mst "s" ⊆ x ∪ y) ∪ x ∩ y ∩ mst "zs" ∪
      y ∩ mst "ufde" ∪ mst "x" ∪ (x ∪ y) ∩ mst "ghij" ∪ x ∩ y ∩ mst "k"
  | .orC => (y ∩ mst "V").when (mst "Bdu" ⊆ x) ∪ (x ∩ mst "o").when (mst "z" ⊆ y) ∪
      (x ∩ y ∩ mst "m").when (mst "e" ⊆ x && mst "s" ⊆ x ∪ y) ∪ x ∩ y ∩ mst "zs" ∪ mst "fx" ∪
      (x ∪ y) ∩ mst "ghij" ∪ x ∩ y ∩ mst "k"
  | .orI => x ∩ y ∩ mst "VBKufs" ∪ (mst "o").when (mst "z" ⊆ x ∩ y) ∪
      ((x ∪ y) ∩ mst "e").when (mst "f" ⊆ x ∪ y) ∪ (x ∩ y ∩ mst "m").when (mst "s" ⊆ x ∪ y) ∪
      (x ∪ y) ∩ mst "d" ∪ mst "x" ∪ (x ∪ y) ∩ mst "ghij" ∪ x ∩ y ∩ mst "k"
  | .andor => (y ∩ z ∩ mst "BKV").when (mst "Bdu" ⊆ x) ∪ x ∩ y ∩ z ∩ mst "z" ∪
      ((x ∪ y ∩ z) ∩ mst "o").when (mst "z" ⊆ x ∪ y ∩ z) ∪ y ∩ z ∩ mst "u" ∪
      (z ∩ mst "f").when (mst "s" ⊆ x || mst "f" ⊆ y) ∪ z ∩ mst "d" ∪
      (z ∩ mst "e").when (mst "s" ⊆ x || mst "f" ⊆ y) ∪
      (x ∩ y ∩ z ∩ mst "m").when (mst "e" ⊆ x && mst "s" ⊆ x ∪ y ∪ z) ∪
      z ∩ (x ∪ y) ∩ mst "s" ∪ mst "x" ∪ (x ∪ y ∪ z) ∩ mst "ghij" ∪
      (mst "k").when (mst "k" ⊆ x ∩ y ∩ z && !mixes x y)
  | .multi => mst "Bnudemsk"
  | .multiA => mst "Budemsk"
  | .thresh => threshType subTypes k nSubs

def computeType (fragment : Fragment) (x y z : ExprType) (subTypes : List ExprType)
  (k dataSize nSubs nKeys : ℕ) (msCtx : MiniscriptContext) : Option ExprType := do
  guard (argumentsFit fragment k dataSize nSubs nKeys msCtx)
  return fragmentType fragment x y z subTypes k nSubs msCtx

inductive Node (Key : Type)
  | mk (fragment : Fragment) (k : ℕ) (keys : List Key) (data : List UInt8) (subs : List (Node Key))

open Node

variable {Key : Type}

mutual

/-- `none` where one of the checks fails and the constructor throws. -/
def Node.calcType (msCtx : MiniscriptContext) : Node Key → Option ExprType
  | .mk fragment k keys data subs => do
    let types ← calcTypes msCtx subs
    let t ← computeType fragment (types.getD 0 ∅) (types.getD 1 ∅) (types.getD 2 ∅)
      (if fragment = .thresh then types else []) k data.length subs.length keys.length msCtx
    sanitizeType t

def calcTypes (msCtx : MiniscriptContext) : List (Node Key) → Option (List ExprType)
  | [] => some []
  | sub :: subs => do return (← sub.calcType msCtx) :: (← calcTypes msCtx subs)

end

/-- A node of `IsSatisfiable`, with the answer of the context and of its children. -/
def satisfied (fragment : Fragment) (k : ℕ) (leaf : Bool) (subs : List Bool) : Bool :=
  match fragment with
  | .just0 => false
  | .just1 => true
  | .pkK | .pkH | .multi | .multiA | .after | .older | .hash256 | .hash160 | .sha256
  | .ripemd160 => leaf
  | .andor => (subs.getD 0 false && subs.getD 1 false) || subs.getD 2 false
  | .andV | .andB => subs.getD 0 false && subs.getD 1 false
  | .orB | .orC | .orD | .orI => subs.getD 0 false || subs.getD 1 false
  | .thresh => subs.count true ≥ k
  | .wrapA | .wrapS | .wrapC | .wrapD | .wrapV | .wrapJ | .wrapN => subs.getD 0 false

mutual

def Node.isSatisfiable (fn : Node Key → Bool) : Node Key → Bool
  | .mk fragment k keys data subs =>
    satisfied fragment k (fn (.mk fragment k keys data subs)) (satisfiables fn subs)

def satisfiables (fn : Node Key → Bool) : List (Node Key) → List Bool
  | [] => []
  | sub :: subs => sub.isSatisfiable fn :: satisfiables fn subs

end

/-- The letter that stands for the timelock of a leaf. -/
def Node.timelock : Node Key → Option Char
  | .mk .older k _ _ _ => some (if k &&& sequenceLocktimeTypeFlag ≠ 0 then 'g' else 'h')
  | .mk .after k _ _ _ => some (if k ≥ locktimeThreshold then 'i' else 'j')
  | _ => none

section
variable {fn : Node Key → Bool} {subs : List (Node Key)} {types : List ExprType}
  {msCtx : MiniscriptContext} {f : Fragment} {k : ℕ} {keys : List Key} {data : List UInt8}
  {t : ExprType}

lemma Node.induction {P : Node Key → Prop} (step : ∀ f k keys data subs,
  (∀ sub ∈ subs, P sub) → P (.mk f k keys data subs)) (node : Node Key) : P node :=
  @Node.rec Key P (fun subs => ∀ sub ∈ subs, P sub) step (by simp)
    (fun _ _ first hl => forall_mem_cons.mpr ⟨first, hl⟩) node

lemma satisfiables_eq : satisfiables fn subs = subs.map (isSatisfiable fn) := by
  induction subs with
  | nil => rfl
  | cons sub subs ih => rw [satisfiables, ih, map_cons]

lemma calcTypes_eq (typed : calcTypes msCtx subs = some types) :
  Forall₂ (fun sub t => sub.calcType msCtx = some t) subs types := by
  induction subs generalizing types with
  | nil =>
    cases typed
    exact .nil
  | cons sub subs ih =>
    obtain ⟨t, first, typed⟩ := Option.bind_eq_some_iff.mp typed
    obtain ⟨types, hl, eq⟩ := Option.bind_eq_some_iff.mp typed
    cases eq
    exact .cons first (ih hl)

lemma sanitizeType_eq {e : ExprType} (typed : sanitizeType e = some t) : t = ∅ ∨ t = e := by
  unfold sanitizeType at typed
  dsimp only at typed
  split at typed
  · cases typed
    exact .inl rfl
  · split at typed <;> cases typed
    exact .inr rfl
  · cases typed

lemma calcType_eq (typed : (Node.mk f k keys data subs).calcType msCtx = some t) (locks : 'k' ∈ t) :
  ∃ types, Forall₂ (fun sub t => sub.calcType msCtx = some t) subs types ∧
    argumentsFit f k data.length subs.length keys.length msCtx = true ∧
    t = fragmentType f (types.getD 0 ∅) (types.getD 1 ∅) (types.getD 2 ∅)
      (if f = .thresh then types else []) k subs.length msCtx := by
  rw [calcType] at typed
  obtain ⟨types, children, typed⟩ := Option.bind_eq_some_iff.mp typed
  obtain ⟨e, computed, typed⟩ := Option.bind_eq_some_iff.mp typed
  obtain ⟨_, hf, eq⟩ := Option.bind_eq_some_iff.mp computed
  cases eq
  refine ⟨types, calcTypes_eq children, by simpa [guard] using hf, ?_⟩
  rcases sanitizeType_eq typed with rfl | hs
  · exact absurd locks (Finset.notMem_empty _)
  · exact hs

end

section
variable {x y t : ExprType} {p q fn : Node Key → Bool} {P Q : (Node Key → Bool) → Prop}

/-- Conditions whose timelocks go together and are among the properties `t`. -/
structure Held (t : ExprType) (p : Node Key → Bool) : Prop where
  covered : ∀ a c, p a = true → a.timelock = some c → c ∈ t
  apart : ∀ a b c d, p a = true → p b = true → a.timelock = some c → b.timelock = some d →
    mixes {c} {d} = false

/-- Any conditions that suffice contain some that go together and suffice with whatever is added. -/
def Reduces (P : (Node Key → Bool) → Prop) (t : ExprType) : Prop :=
  ∀ fn, P fn → ∃ p ≤ fn, Held t p ∧ ∀ q ≥ p, P q

lemma mixes_singleton {c d : Char} (cx : c ∈ x) (dy : d ∈ y) (ha : mixes x y = false) :
  mixes {c} {d} = false ∧ mixes {d} {c} = false := by
  simp [mixes, mst] at ha ⊢
  grind

lemma timelock_mem {a : Node Key} {c : Char} (lock : a.timelock = some c) : c ∈ mst "ghij" := by
  unfold timelock at lock
  split at lock <;> cases lock
  · split <;> decide
  · split <;> decide

lemma Held.mono (held : Held x p) (sub : ∀ c ∈ mst "ghij", c ∈ x → c ∈ t) : Held t p :=
  ⟨fun a c first lock => sub c (timelock_mem lock) (held.covered a c first lock), held.apart⟩

lemma Held.sup (left : Held x p) (hr : Held y q) (apart : mixes x y = false) :
  Held (x ∪ y) (p ⊔ q) where
  covered a c first lock := by
    rcases Bool.or_eq_true_iff.mp first with first | first
    · exact mem_union_left _ (left.covered a c first lock)
    · exact mem_union_right _ (hr.covered a c first lock)
  apart a b c d first hs lock lock' := by
    rcases Bool.or_eq_true_iff.mp first with first | first <;>
      rcases Bool.or_eq_true_iff.mp hs with hs | hs
    · exact left.apart a b c d first hs lock lock'
    · exact (mixes_singleton (left.covered a c first lock) (hr.covered b d hs lock') apart).1
    · exact (mixes_singleton (left.covered b d hs lock') (hr.covered a c first lock) apart).2
    · exact hr.apart a b c d first hs lock lock'

lemma Reduces.mono (reduces : Reduces P x) (sub : ∀ c ∈ mst "ghij", c ∈ x → c ∈ t) :
  Reduces P t := by
  intro fn he
  obtain ⟨p, less, held, suffices_⟩ := reduces fn he
  exact ⟨p, less, held.mono sub, suffices_⟩

lemma Reduces.and (left : Reduces P x) (hr : Reduces Q y) (ha : mixes x y = false) :
  Reduces (fun fn => P fn ∧ Q fn) (x ∪ y) := by
  rintro fn ⟨hp, hq⟩
  obtain ⟨p, less, heldP, enoughP⟩ := left fn hp
  obtain ⟨q, less', heldQ, enoughQ⟩ := hr fn hq
  exact ⟨p ⊔ q, sup_le less less', heldP.sup heldQ ha, fun r hab =>
    ⟨enoughP r (le_sup_left.trans hab), enoughQ r (le_sup_right.trans hab)⟩⟩

lemma Reduces.or (left : Reduces P x) (hr : Reduces Q y) :
  Reduces (fun fn => P fn ∨ Q fn) (x ∪ y) := by
  rintro fn (hp | hq)
  · obtain ⟨p, less, held, he⟩ := left fn hp
    exact ⟨p, less, held.mono fun _ _ => mem_union_left y, fun q hq => .inl (he q hq)⟩
  · obtain ⟨p, less, held, he⟩ := hr fn hq
    exact ⟨p, less, held.mono fun _ _ => mem_union_right x, fun q hq => .inr (he q hq)⟩

end

@[simp] lemma mem_when {t : ExprType} {b : Bool} {c : Char} : c ∈ t.when b ↔ b = true ∧ c ∈ t := by
  cases b <;> simp [ExprType.when]

lemma mst_k_subset {t : ExprType} : mst "k" ⊆ t ↔ 'k' ∈ t := by
  simp [mst]

section
variable {k : ℕ} {accTl t : ExprType} {types : List ExprType} {subs : List (Node Key)}
  {fn p : Node Key → Bool} {msCtx : MiniscriptContext} {c : Char}

lemma threshTimelocks_k (locks : 'k' ∈ threshTimelocks k accTl t) :
  'k' ∈ accTl ∧ 'k' ∈ t ∧ (1 < k → mixes accTl t = false) := by
  simp [threshTimelocks, ExprType.when, mst] at locks
  grind

lemma mem_threshTimelocks (lock : c ∈ mst "ghij") (hm : c ∈ accTl ∪ t) :
  c ∈ threshTimelocks k accTl t :=
  mem_union_left _ (Finset.mem_inter.mpr ⟨hm, lock⟩)

lemma foldl_locks (locks : 'k' ∈ types.foldl (threshTimelocks k) accTl) :
  'k' ∈ accTl ∧ ∀ c ∈ mst "ghij", c ∈ accTl → c ∈ types.foldl (threshTimelocks k) accTl := by
  induction types generalizing accTl with
  | nil => exact ⟨locks, fun c _ hm => hm⟩
  | cons t types ih =>
    obtain ⟨first, hl⟩ := ih locks
    exact ⟨(threshTimelocks_k first).1, fun c lock hm =>
      hl c lock (mem_threshTimelocks lock (mem_union_left _ hm))⟩

lemma threshType_locks {nSubs : ℕ} (locks : 'k' ∈ threshType types k nSubs) :
  'k' ∈ types.foldl (threshTimelocks k) (mst "k") ∧
    types.foldl (threshTimelocks k) (mst "k") ⊆ threshType types k nSubs := by
  unfold threshType at locks ⊢
  split at locks
  · next typed =>
    rw [if_pos typed]
    exact ⟨by simpa +decide using locks, Finset.subset_union_right⟩
  · cases locks

variable (reduces : ∀ sub ∈ subs, ∀ t, sub.calcType msCtx = some t → 'k' ∈ t →
  Reduces (fun fn => sub.isSatisfiable fn = true) t)
  (typed : Forall₂ (fun sub t => sub.calcType msCtx = some t) subs types)
  (locks : 'k' ∈ types.foldl (threshTimelocks k) accTl)

include reduces typed locks

lemma thresh_one {sub : Node Key} (mem : sub ∈ subs) :
  Reduces (fun fn => sub.isSatisfiable fn = true) (types.foldl (threshTimelocks k) accTl) := by
  induction typed generalizing accTl with
  | nil => cases mem
  | cons first _ ih =>
    rw [foldl_cons] at locks ⊢
    obtain ⟨hh, hl⟩ := foldl_locks locks
    rcases mem_cons.mp mem with rfl | mem
    · exact (reduces _ mem_cons_self _ first (threshTimelocks_k hh).2.1).mono fun c lock hc =>
        hl c lock (mem_threshTimelocks lock (mem_union_right _ hc))
    · exact ih (fun sub hs => reduces sub (mem_cons_of_mem _ hs)) locks mem

lemma thresh_all (hse : 1 < k) (less : p ≤ fn) (held : Held accTl p) :
  ∃ q ≤ fn, p ≤ q ∧ Held (types.foldl (threshTimelocks k) accTl) q ∧
    ∀ sub ∈ subs, sub.isSatisfiable fn = true → ∀ r ≥ q, sub.isSatisfiable r = true := by
  induction typed generalizing accTl p with
  | nil => exact ⟨p, less, le_rfl, held, by simp⟩
  | @cons sub t subs types first _ ih =>
    rw [foldl_cons] at locks ⊢
    obtain ⟨-, hk, ha⟩ := threshTimelocks_k (foldl_locks locks).1
    -- the conditions of this child join those chosen so far
    obtain ⟨q, less, grows, held, hh⟩ : ∃ q ≤ fn, p ≤ q ∧ Held (threshTimelocks k accTl t) q ∧
      (sub.isSatisfiable fn = true → ∀ r ≥ q, sub.isSatisfiable r = true) := by
      by_cases he : sub.isSatisfiable fn = true
      · obtain ⟨q, less', heldQ, hp⟩ := reduces sub mem_cons_self t first hk fn he
        exact ⟨p ⊔ q, sup_le less less', le_sup_left, (held.sup heldQ (ha hse)).mono
          fun c lock => mem_threshTimelocks lock, fun _ r hr => hp r (le_sup_right.trans hr)⟩
      · exact ⟨p, less, le_rfl, held.mono fun c lock hc =>
          mem_threshTimelocks lock (mem_union_left _ hc), fun hp => absurd hp he⟩
    obtain ⟨r, less, grows', held, hl⟩ :=
      ih (fun sub hs => reduces sub (mem_cons_of_mem _ hs)) locks less held
    exact ⟨r, less, grows.trans grows', held, forall_mem_cons.mpr
      ⟨fun he r' hr => hh he r' (grows'.trans hr), hl⟩⟩

lemma thresh_reduces (first : 0 < k) :
  Reduces (fun fn => k ≤ (subs.map (isSatisfiable fn)).count true)
    (types.foldl (threshTimelocks k) accTl) := by
  intro fn he
  rcases lt_or_ge 1 k with several | one
  · obtain ⟨p, less, -, held, hp⟩ := thresh_all reduces typed locks several
      (bot_le : ⊥ ≤ fn) ⟨nofun, nofun⟩
    refine ⟨p, less, held, fun q hq => he.trans ?_⟩
    simp only [count, countP_map]
    exact countP_mono_left fun sub mem h => by simpa using hp sub mem (by simpa using h) q hq
  · obtain ⟨sub, mem, eq⟩ := mem_map.mp (count_pos_iff.mp (first.trans_le he))
    obtain ⟨p, less, held, hp⟩ := thresh_one reduces typed locks mem fn eq
    exact ⟨p, less, held, fun q hq => one.trans
      (count_pos_iff.mpr (mem_map.mpr ⟨sub, mem, hp q hq⟩))⟩

end

variable {msCtx : MiniscriptContext} {t : ExprType}

lemma leaf_reduces {leaf : Node Key} (hl : ∀ c, leaf.timelock = some c → c ∈ t) :
  Reduces (fun fn => fn leaf = true) t := by
  classical
  intro fn he
  refine ⟨fun a => decide (a = leaf), fun a => ?_, ⟨?_, ?_⟩, fun q hq => ?_⟩
  · exact Bool.le_iff_imp.mpr fun hsa => of_decide_eq_true hsa ▸ he
  · intro a c first lock
    exact hl c (of_decide_eq_true first ▸ lock)
  · intro a b c d first hs lock lock'
    rw [of_decide_eq_true first] at lock
    rw [of_decide_eq_true hs, lock] at lock'
    cases lock'
    simp [mixes, mst]
    grind
  · exact Bool.le_iff_imp.mp (hq leaf) (decide_eq_true rfl)

lemma calcType_reduces (node : Node Key) (typed : node.calcType msCtx = some t)
  (locks : 'k' ∈ t) : Reduces (fun fn => node.isSatisfiable fn = true) t := by
  induction node using Node.induction generalizing t with
  | step fragment k keys data subs ih =>
    obtain ⟨types, children, hf, rfl⟩ := calcType_eq typed locks
    simp only [isSatisfiable, satisfiables_eq]
    have length : (subs.length == _) = true := (Bool.and_eq_true_iff.mp
      (Bool.and_eq_true_iff.mp hf).1).2
    cases fragment
    case thresh =>
      obtain ⟨hfo, sub⟩ := threshType_locks locks
      have atLeast : (decide (1 ≤ k) && decide (k ≤ subs.length)) = true :=
        (Bool.and_eq_true_iff.mp (Bool.and_eq_true_iff.mp (Bool.and_eq_true_iff.mp hf).1).1).2
      have reduced := thresh_reduces (fun sub hi t => ih sub hi) children hfo
        (of_decide_eq_true (Bool.and_eq_true_iff.mp atLeast).1)
      simp only [satisfied, decide_eq_true_eq]
      exact reduced.mono fun c _ hi => sub hi
    case andV | andB =>
      obtain ⟨a, b, rfl⟩ := length_eq_two.mp (beq_iff_eq.mp length)
      obtain ⟨x, _, first, last, rfl⟩ := forall₂_cons_left_iff.mp children
      obtain ⟨y, _, hs, -, rfl⟩ := forall₂_cons_left_iff.mp last
      have kept : 'k' ∈ x ∧ 'k' ∈ y ∧ mixes x y = false := by
        simpa +decide [fragmentType, mst_k_subset, and_assoc] using locks
      obtain ⟨kx, ky, ha⟩ := kept
      have reduced := (ih a (by simp) first kx).and (ih b (by simp) hs ky) ha
      simp only [satisfied, Bool.and_eq_true]
      refine reduced.mono fun c lock hi => ?_
      simp [fragmentType, lock, mem_union.mp hi]
    case orB | orC | orD | orI =>
      obtain ⟨a, b, rfl⟩ := length_eq_two.mp (beq_iff_eq.mp length)
      obtain ⟨x, _, first, last, rfl⟩ := forall₂_cons_left_iff.mp children
      obtain ⟨y, _, hs, -, rfl⟩ := forall₂_cons_left_iff.mp last
      have kept : 'k' ∈ x ∧ 'k' ∈ y := by
        simpa +decide [fragmentType] using locks
      have reduced := (ih a (by simp) first kept.1).or (ih b (by simp) hs kept.2)
      simp only [satisfied, Bool.or_eq_true]
      refine reduced.mono fun c lock hi => ?_
      simp [fragmentType, lock, mem_union.mp hi]
    case andor =>
      obtain ⟨a, b, d, rfl⟩ := length_eq_three.mp (beq_iff_eq.mp length)
      obtain ⟨x, _, first, ho, rfl⟩ := forall₂_cons_left_iff.mp children
      obtain ⟨y, _, hs, last, rfl⟩ := forall₂_cons_left_iff.mp ho
      obtain ⟨z, _, third, -, rfl⟩ := forall₂_cons_left_iff.mp last
      have kept : 'k' ∈ x ∧ 'k' ∈ y ∧ 'k' ∈ z ∧ mixes x y = false := by
        simpa +decide [fragmentType, mst_k_subset, and_assoc] using locks
      obtain ⟨kx, ky, kz, ha⟩ := kept
      have reduced := ((ih a (by simp) first kx).and (ih b (by simp) hs ky) ha).or
        (ih d (by simp) third kz)
      simp only [satisfied, Bool.or_eq_true, Bool.and_eq_true]
      refine reduced.mono fun c lock hi => ?_
      have member : c ∈ x ∨ c ∈ y ∨ c ∈ z := by simpa [or_assoc] using hi
      simp [fragmentType, lock, member]
    case wrapA | wrapS | wrapC | wrapD | wrapV | wrapJ | wrapN =>
      obtain ⟨sub, rfl⟩ := length_eq_one_iff.mp (beq_iff_eq.mp length)
      obtain ⟨x, _, first, -, rfl⟩ := forall₂_cons_left_iff.mp children
      have kept : 'k' ∈ x := by
        simpa +decide [fragmentType] using locks
      refine (ih sub (by simp) first kept).mono fun c lock hi => ?_
      have more : c ∈ mst "ghijk" := Finset.mem_of_subset (by decide) lock
      simp [fragmentType, hi, more]
    case older | after =>
      refine leaf_reduces fun c lock => ?_
      cases lock
      simp [fragmentType, mst]
      grind
    case just0 => exact fun fn => nofun
    case just1 => exact fun fn _ => ⟨⊥, bot_le, ⟨nofun, nofun⟩, fun _ _ => rfl⟩
    all_goals exact leaf_reduces fun c => nofun

/-- Minimal conditions for a node of type `k` have no lock by height beside one by time. -/
theorem timelocks_unmixed (msCtx : MiniscriptContext) (t : ExprType) (node : Node Key)
  (typed : node.calcType msCtx = some t) (locks : 'k' ∈ t) (conditions : Node Key → Bool)
  (minimal : Minimal (fun fn => node.isSatisfiable fn = true) conditions) (a b : Node Key)
  (first : conditions a = true) (second : conditions b = true) :
  ¬ (a.timelock = some 'h' ∧ b.timelock = some 'g') ∧
    ¬ (a.timelock = some 'j' ∧ b.timelock = some 'i') := by
  obtain ⟨p, less, held, he⟩ := calcType_reduces node typed locks conditions minimal.1
  have same : conditions ≤ p := minimal.2 (he p le_rfl) less
  have apart := held.apart a b
  rw [Bool.le_iff_imp.mp (same a) first, Bool.le_iff_imp.mp (same b) second] at apart
  constructor
  · rintro ⟨height, time⟩
    exact absurd (apart _ _ rfl rfl height time) (by decide)
  · rintro ⟨height, time⟩
    exact absurd (apart _ _ rfl rfl height time) (by decide)

/-- `and_v(v:older(10),after(600000000))` -/
def heightAndTime : Node ℕ :=
  .mk .andV 0 [] [] [.mk .wrapV 0 [] [] [.mk .older 10 [] [] []], .mk .after 600000000 [] [] []]

theorem timelocks_unmixed_heightAndTime :
  ¬ ((Node.mk .older 10 [] [] [] : Node ℕ).timelock = some 'h' ∧
    (Node.mk .after 600000000 [] [] [] : Node ℕ).timelock = some 'g') ∧
  ¬ ((Node.mk .older 10 [] [] [] : Node ℕ).timelock = some 'j' ∧
    (Node.mk .after 600000000 [] [] [] : Node ℕ).timelock = some 'i') := by
  refine timelocks_unmixed .p2wsh (mst "Bmzfxhik") heightAndTime (by decide +kernel)
    (by decide) (fun | .mk fragment k keys data subs => keys.isEmpty && data.isEmpty &&
      subs.isEmpty && (fragment = .older && k = 10 || fragment = .after && k = 600000000))
    ⟨by decide, fun fn he less a => Bool.le_iff_imp.mpr ?_⟩ _ _ rfl rfl
  obtain ⟨first, hs⟩ := Bool.and_eq_true_iff.mp he
  obtain ⟨fragment, k, keys, data, subs⟩ := a
  simp only [Bool.and_eq_true, Bool.or_eq_true, List.isEmpty_iff, decide_eq_true_eq]
  rintro ⟨⟨⟨rfl, rfl⟩, rfl⟩, ⟨rfl, rfl⟩ | ⟨rfl, rfl⟩⟩
  · exact first
  · exact hs

end Miniscript
