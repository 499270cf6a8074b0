import Andaluzcoin.CoinsFlush

/-!
# A stack of caches refines a stack of partial maps

The operations a user of a stack of coins caches can perform, side by side with
a reference that keeps one partial map of edits per layer and knows nothing of
flags, linked lists or cached copies. Both answer every lookup alike, at every
depth, along every run in which an addition announced as no overwrite is none.
-/

namespace CoinsRefinement

open Transaction Coins CoinsInvariant CoinsFlush LayeredMap

variable {v : CoinsView} {op : Op} {m : Reference} {α : Type*}

/-- Lookups may address any depth, zero being the top; past the last cache they
address the bottom. The other operations address the top layer. -/
inductive Op where
  | getCoin (depth : ℕ) (o : COutPoint)
  | peekCoin (depth : ℕ) (o : COutPoint)
  | haveCoin (depth : ℕ) (o : COutPoint)
  | accessCoin (depth : ℕ) (o : COutPoint)
  | addCoin (o : COutPoint) (coin : Coin) (possibleOverwrite : Bool)
  | spendCoin (o : COutPoint)
  | uncache (o : COutPoint)
  | flush
  | sync
  | reset
  | addLayer (isOverlay : Bool)
  | dropLayer
  deriving DecidableEq

inductive Answer where
  | found (coin : Option Coin)
  | have (present : Bool)
  | accessed (coin : Coin)
  | moved (coin : Coin)
  | done
  deriving DecidableEq

/-- Apply a lookup to the view at a depth, keeping what it caches. -/
def atDepth {α : Type*} (look : CoinsView → α × CoinsView) : ℕ → CoinsView → α × CoinsView
  | 0, v => look v
  | _ + 1, .bottom b => look (.bottom b)
  | depth + 1, .cache l base =>
    ((atDepth look depth base).1, .cache l (atDepth look depth base).2)

def haveCoin (o : COutPoint) : CoinsView → Bool × CoinsView
  | .bottom b => ((b.getCoin o).isSome, .bottom b)
  | .cache l base =>
    ((CCoinsViewCache.haveCoin ⟨l, base⟩ o).1, (CCoinsViewCache.haveCoin ⟨l, base⟩ o).2.toView)

/-- The bottom has no `AccessCoin`; its `GetCoin` stands in. -/
def accessCoin (o : COutPoint) : CoinsView → Coin × CoinsView
  | .bottom b => ((b.getCoin o).getD Coin.empty, .bottom b)
  | .cache l base =>
    ((CCoinsViewCache.accessCoin ⟨l, base⟩ o).1,
      (CCoinsViewCache.accessCoin ⟨l, base⟩ o).2.toView)

def answering {α : Type*} (answer : α → Answer) (r : α × CoinsView) :
  Except CoinsError (Answer × CoinsView) :=
  .ok (answer r.1, r.2)

/-- An operation of the top cache; without a cache there is nothing to do. -/
def onTop (v : CoinsView) (op : CCoinsViewCache → Except CoinsError (Answer × CCoinsViewCache)) :
  Except CoinsError (Answer × CoinsView) :=
  match v with
  | .bottom b => .ok (.done, .bottom b)
  | .cache l base => (op ⟨l, base⟩).map fun r => (r.1, r.2.toView)

def step (v : CoinsView) : Op → Except CoinsError (Answer × CoinsView)
  | .getCoin depth o => answering .found (atDepth (·.getCoin o) depth v)
  | .peekCoin depth o => answering .found (atDepth (fun v => (v.peekCoin o, v)) depth v)
  | .haveCoin depth o => answering .have (atDepth (haveCoin o) depth v)
  | .accessCoin depth o => answering .accessed (atDepth (accessCoin o) depth v)
  | .addCoin o coin possibleOverwrite =>
    onTop v fun v => (v.addCoin o coin possibleOverwrite).map (.done, ·)
  | .spendCoin o =>
    onTop v fun v => .ok (.moved ((v.spendCoin o).1.getD Coin.empty), (v.spendCoin o).2)
  | .uncache o => onTop v fun v => .ok (.done, v.uncache o)
  | .flush => onTop v fun v => v.flush.map (.done, ·)
  | .sync => onTop v fun v => v.sync.map (.done, ·)
  | .reset => onTop v fun v => .ok (.done, v.reset)
  | .addLayer isOverlay => .ok (.done, .cache (CacheLayer.new isOverlay) v)
  | .dropLayer =>
    match v with
    | .bottom b => .ok (.done, .bottom b)
    | .cache _ base => .ok (.done, base)

def run (v : CoinsView) : List Op → Except CoinsError (List Answer × CoinsView)
  | [] => .ok ([], v)
  | op :: rest => do
    let (answer, v) ← step v op
    let (answers, v) ← run v rest
    .ok (answer :: answers, v)

/-- One partial map from outpoints to spent or unspent per layer, over the base map. -/
abbrev Reference := LayeredMap COutPoint Coin

namespace Reference

/-- What the reference shows at a depth. -/
def lookup (m : Reference) (depth : ℕ) : COutPoint → Option Coin :=
  LayeredMap.top { m with layers := m.layers.drop depth }

def step (m : Reference) : Op → Answer × Reference
  | .getCoin depth o => (.found (lookup m depth o), m)
  | .peekCoin depth o => (.found (lookup m depth o), m)
  | .haveCoin depth o => (.have (lookup m depth o).isSome, m)
  | .accessCoin depth o => (.accessed ((lookup m depth o).getD Coin.empty), m)
  | .addCoin o coin _ =>
    (.done, if isUnspendable coin.out.scriptPubKey then m else m.edit o (some coin))
  | .spendCoin o =>
    (if m.layers = [] then .done else .moved ((m.top o).getD Coin.empty), m.edit o none)
  | .uncache _ => (.done, m)
  | .flush => (.done, m.mergeDown)
  | .sync => (.done, m.mergeDown)
  | .reset => (.done, m.clearTop)
  | .addLayer _ => (.done, m.push)
  | .dropLayer => (.done, m.pop)

def run (m : Reference) : List Op → List Answer × Reference
  | [] => ([], m)
  | op :: rest => ((step m op).1 :: (run (step m op).2 rest).1, (run (step m op).2 rest).2)

end Reference

/-- A coin handed to `AddCoin` is unspent, and it is announced as no overwrite only where
the composed view holds no unspent coin. -/
def Admissible (m : Reference) : Op → Prop
  | .addCoin o coin possibleOverwrite =>
    coin.isSpent = false ∧ (possibleOverwrite = false → m.top o = none)
  | _ => True

def AdmissibleRun (m : Reference) : List Op → Prop
  | [] => True
  | op :: rest => Admissible m op ∧ AdmissibleRun (Reference.step m op).2 rest

/-- The stack keeps its promises and shows, at every depth, what the reference shows. -/
structure Simulates (v : CoinsView) (m : Reference) : Prop where
  valid : Valid true v
  views : views v = m.views

namespace Simulates

variable {m : Reference}

lemma peekCoin {v : CoinsView} (sim : Simulates v m) : v.peekCoin = m.top := by
  have same := sim.views
  rw [views_eq_cons v] at same
  rw [top, ← same]
  rfl

lemma bottom {b : CoinsViewBottom} (sim : Simulates (.bottom b) m) : m.layers = [] := by
  obtain ⟨layers, base⟩ := m
  cases layers with
  | nil => rfl
  | cons top rest =>
    have same := sim.views
    cases rest with
    | nil => simp [CoinsInvariant.views, LayeredMap.views, stacked] at same
    | cons next rest => simp [CoinsInvariant.views, LayeredMap.views, stacked] at same

/-- Under a cache the simulation goes on with the top layer of the reference removed. -/
lemma cache {l : CacheLayer} {base : CoinsView} (sim : Simulates (.cache l base) m) :
  ∃ top rest, m.layers = top :: rest ∧ Simulates base ⟨rest, m.base⟩ := by
  obtain ⟨layers, data⟩ := m
  have same := sim.views
  cases layers with
  | nil =>
    simp only [CoinsInvariant.views, LayeredMap.views, stacked] at same
    rw [views_eq_cons base] at same
    simp at same
  | cons top rest => exact ⟨top, rest, rfl, sim.valid.2, (List.cons.inj same).2⟩

end Simulates

/-- A lookup that only depends on what its view shows can be made at any depth. -/
lemma atDepth_looksUp {look : CoinsView → α × CoinsView} (result : (COutPoint → Option Coin) → α)
  (spec : ∀ v, Valid true v → LooksUp true v (result v.peekCoin) (look v))
  (depth : ℕ) (sim : Simulates v m) :
  LooksUp true v (result (Reference.lookup m depth)) (atDepth look depth v) := by
  induction depth generalizing v m with
  | zero =>
    have looksUp := spec v sim.valid
    rwa [sim.peekCoin] at looksUp
  | succ depth ih =>
    cases v with
    | bottom b =>
      have looksUp := spec (.bottom b) sim.valid
      have same : Reference.lookup m (depth + 1) = m.top := by
        simp [Reference.lookup, LayeredMap.top, LayeredMap.views, sim.bottom]
      rwa [sim.peekCoin, ← same] at looksUp
    | cache l base =>
      obtain ⟨top, rest, layers, below⟩ := sim.cache
      have looksUp := ih below
      have same : Reference.lookup m (depth + 1) = Reference.lookup ⟨rest, m.base⟩ depth := by
        simp [Reference.lookup, layers]
      have under := looksUp.under sim.valid
      rw [same]
      exact ⟨looksUp.answer, under.1, under.2.1, under.2.2⟩

lemma haveCoin_view_looksUp (o : COutPoint) (v : CoinsView) (hv : Valid true v) :
  LooksUp true v (v.peekCoin o).isSome (haveCoin o v) := by
  cases v with
  | bottom b => exact ⟨rfl, hv, rfl, rfl⟩
  | cache l base => exact haveCoin_looksUp (v := ⟨l, base⟩) hv o

lemma accessCoin_view_looksUp (o : COutPoint) (v : CoinsView) (hv : Valid true v) :
  LooksUp true v ((v.peekCoin o).getD Coin.empty) (accessCoin o v) := by
  cases v with
  | bottom b => exact ⟨rfl, hv, rfl, rfl⟩
  | cache l base => exact accessCoin_looksUp (v := ⟨l, base⟩) hv o

/-- What one operation owes the reference. -/
def StepRefines (v : CoinsView) (m : Reference) (op : Op) : Prop :=
  ∃ v', step v op = .ok ((Reference.step m op).1, v') ∧ Simulates v' (Reference.step m op).2

lemma refines_of_looksUp (sim : Simulates v m) {answer : α → Answer} {expected : α}
  {r : α × CoinsView} (hlu : LooksUp true v expected r) (hs : step v op = answering answer r)
  (hr : Reference.step m op = (answer expected, m)) : StepRefines v m op := by
  refine ⟨r.2, ?_, ?_⟩
  · rw [hs, hr, answering, hlu.answer]
  · rw [hr]
    exact ⟨hlu.valid, hlu.views.trans sim.views⟩

lemma refines_of_top {l : CacheLayer} {base : CoinsView} {answer : Answer} {v' : CCoinsViewCache}
  {m' : Reference} (hst : step (.cache l base) op = .ok (answer, v'.toView))
  (hr : Reference.step m op = (answer, m')) (hv : Valid true v'.toView)
  (hs : views v'.toView = m'.views) : StepRefines (.cache l base) m op := by
  refine ⟨v'.toView, ?_, ?_⟩
  · rw [hst, hr]
  · rw [hr]
    exact ⟨hv, hs⟩

section
variable {l : CacheLayer} {base : CoinsView} {top : Edits COutPoint Coin}
  {rest : List (Edits COutPoint Coin)} {data : COutPoint → Option Coin}

variable (sim : Simulates (.cache l base) ⟨top :: rest, data⟩)
include sim

lemma addCoin_refines
  (below : Simulates base ⟨rest, data⟩) {o : COutPoint} {coin : Coin} {possibleOverwrite : Bool}
  (admissible : Admissible ⟨top :: rest, data⟩ (.addCoin o coin possibleOverwrite)) :
  StepRefines (.cache l base) ⟨top :: rest, data⟩ (.addCoin o coin possibleOverwrite) := by
  obtain ⟨unspent, ha⟩ := admissible
  rw [← sim.peekCoin] at ha
  obtain ⟨v', ok, hs⟩ := addCoin_shows (v := ⟨l, base⟩) sim.valid o unspent ha
  have steps : step (.cache l base) (.addCoin o coin possibleOverwrite)
    = .ok (.done, v'.toView) := by
    simp [step, onTop, ok, Except.map]
  refine refines_of_top steps rfl hs.valid ?_
  have peek : CCoinsViewCache.peekCoin ⟨l, base⟩ = LayeredMap.top ⟨top :: rest, data⟩ :=
    sim.peekCoin
  have lower : views base = LayeredMap.views ⟨rest, data⟩ := below.views
  rw [hs.views, added]
  split
  · exact sim.views
  · rw [views_edit, ← peek, ← lower]

lemma spendCoin_refines (o : COutPoint) :
  StepRefines (.cache l base) ⟨top :: rest, data⟩ (.spendCoin o) := by
  obtain ⟨moved, -, hv, hs⟩ := spendCoin_shows (v := ⟨l, base⟩) sim.valid o
  have peek : CCoinsViewCache.peekCoin ⟨l, base⟩ = LayeredMap.top ⟨top :: rest, data⟩ :=
    sim.peekCoin
  have steps : step (.cache l base) (.spendCoin o)
    = .ok (.moved ((LayeredMap.top ⟨top :: rest, data⟩ o).getD Coin.empty),
      (CCoinsViewCache.spendCoin ⟨l, base⟩ o).2.toView) := by
    rw [← peek, ← moved]
    rfl
  have reference : Reference.step ⟨top :: rest, data⟩ (.spendCoin o)
    = (.moved ((LayeredMap.top ⟨top :: rest, data⟩ o).getD Coin.empty),
      edit ⟨top :: rest, data⟩ o none) := by
    simp [Reference.step]
  refine refines_of_top steps reference hv ?_
  rw [hs, views_edit, ← peek]
  congr 1
  exact congrArg List.tail sim.views

variable (below : Simulates base ⟨rest, data⟩)
include below

lemma writesDown_refines {op : Op} {v' : CCoinsViewCache}
  (writes : WritesDown ⟨l, base⟩ v') (hs : step (.cache l base) op = .ok (.done, v'.toView))
  (hr : Reference.step ⟨top :: rest, data⟩ op = (.done, mergeDown ⟨top :: rest, data⟩)) :
  StepRefines (.cache l base) ⟨top :: rest, data⟩ op := by
  refine refines_of_top hs hr writes.valid ?_
  have peek : CCoinsViewCache.peekCoin ⟨l, base⟩ = LayeredMap.top ⟨top :: rest, data⟩ :=
    sim.peekCoin
  rw [writes.views, views_mergeDown, peek, below.views]

lemma reset_refines : StepRefines (.cache l base) ⟨top :: rest, data⟩ .reset := by
  have shows := reset_shows (v := ⟨l, base⟩) sim.valid
  refine refines_of_top rfl rfl shows.valid ?_
  rw [shows.views, views_clearTop, ← below.views]
  congr 1
  exact below.peekCoin

lemma top_step_refines : (∀ o, StepRefines (.cache l base) ⟨top :: rest, data⟩ (.uncache o)) ∧
  StepRefines (.cache l base) ⟨top :: rest, data⟩ .flush ∧
  StepRefines (.cache l base) ⟨top :: rest, data⟩ .sync ∧
  StepRefines (.cache l base) ⟨top :: rest, data⟩ .dropLayer := by
  refine ⟨fun o => ?_, ?_, ?_, ?_⟩
  · have shows := uncache_shows (v := ⟨l, base⟩) sim.valid o
    exact refines_of_top rfl rfl shows.valid (shows.views.trans sim.views)
  · obtain ⟨v', ok, writes⟩ := flush_writesDown (v := ⟨l, base⟩) sim.valid
    refine writesDown_refines sim below writes ?_ rfl
    simp [step, onTop, ok, Except.map]
  · obtain ⟨v', ok, writes⟩ := sync_writesDown (v := ⟨l, base⟩) sim.valid
    refine writesDown_refines sim below writes ?_ rfl
    simp [step, onTop, ok, Except.map]
  · exact ⟨base, rfl, below⟩

end

section
variable (sim : Simulates v m)
include sim

/-- Without a cache the operations of the top layer change nothing on either side. -/
lemma refines_of_cache (admissible : Admissible m op)
  (cache : ∀ {l base top rest data}, Simulates (.cache l base) ⟨top :: rest, data⟩ →
    Simulates base ⟨rest, data⟩ → Admissible ⟨top :: rest, data⟩ op →
      StepRefines (.cache l base) ⟨top :: rest, data⟩ op)
  (hs : ∀ b, step (.bottom b) op = .ok (.done, .bottom b) := by intro; rfl)
  (hr : ∀ data, Reference.step ⟨[], data⟩ op = (.done, ⟨[], data⟩) := by intro; rfl) :
  StepRefines v m op := by
  obtain ⟨layers, data⟩ := m
  cases v with
  | bottom b =>
    obtain rfl : layers = [] := sim.bottom
    exact ⟨.bottom b, by rw [hs, hr], by rw [hr]; exact sim⟩
  | cache l base =>
    obtain ⟨top, rest, rfl, below⟩ := sim.cache
    exact cache sim below admissible

lemma Simulates.addLayer
  (isOverlay : Bool) : Simulates (.cache (CacheLayer.new isOverlay) v) m.push := by
  refine ⟨⟨layerValid_empty rfl rfl, sim.valid⟩, ?_⟩
  have top : (CoinsView.cache (CacheLayer.new isOverlay) v).peekCoin = v.peekCoin := by
    funext o
    exact peekCoin_of_no_entry _ _ _ rfl
  calc CoinsInvariant.views (.cache (CacheLayer.new isOverlay) v)
      = v.peekCoin :: CoinsInvariant.views v := by rw [CoinsInvariant.views, top]
    _ = m.top :: m.views := by rw [sim.peekCoin, sim.views]
    _ = m.push.views := (views_push m).symm

lemma step_refines (admissible : Admissible m op) : StepRefines v m op := by
  cases op with
  | getCoin depth o =>
    have looksUp := atDepth_looksUp (fun hs => hs o) (fun _ hv => getCoin_looksUp hv o) depth sim
    exact refines_of_looksUp sim looksUp rfl rfl
  | peekCoin depth o =>
    have looksUp := atDepth_looksUp (fun hs => hs o) (fun _ hv => peekCoin_looksUp hv o) depth sim
    exact refines_of_looksUp sim looksUp rfl rfl
  | haveCoin depth o =>
    have looksUp := atDepth_looksUp (fun hs => (hs o).isSome) (haveCoin_view_looksUp o) depth sim
    exact refines_of_looksUp sim looksUp rfl rfl
  | accessCoin depth o =>
    have looksUp := atDepth_looksUp (fun hs => (hs o).getD Coin.empty)
      (accessCoin_view_looksUp o) depth sim
    exact refines_of_looksUp sim looksUp rfl rfl
  | addLayer isOverlay => exact ⟨_, rfl, sim.addLayer isOverlay⟩
  | addCoin o coin possibleOverwrite =>
    exact refines_of_cache sim admissible
      (fun sim below admissible => addCoin_refines sim below admissible) (fun _ => rfl)
      fun _ => by simp [Reference.step, edit]
  | spendCoin o =>
    refine refines_of_cache sim admissible fun sim _ _ => ?_
    exact spendCoin_refines sim o
  | uncache o =>
    refine refines_of_cache sim admissible fun sim below _ => ?_
    exact (top_step_refines sim below).1 o
  | flush =>
    refine refines_of_cache sim admissible fun sim below _ => ?_
    exact (top_step_refines sim below).2.1
  | sync =>
    refine refines_of_cache sim admissible fun sim below _ => ?_
    exact (top_step_refines sim below).2.2.1
  | reset =>
    refine refines_of_cache sim admissible fun sim below _ => ?_
    exact reset_refines sim below
  | dropLayer =>
    refine refines_of_cache sim admissible fun sim below _ => ?_
    exact (top_step_refines sim below).2.2.2

/-- Along a whole admissible run no operation throws and every answer is the reference's. -/
lemma run_refines (ops : List Op) (admissible : AdmissibleRun m ops) :
  ∃ v', run v ops = .ok ((Reference.run m ops).1, v') ∧ Simulates v' (Reference.run m ops).2 := by
  induction ops generalizing v m with
  | nil => exact ⟨v, rfl, sim⟩
  | cons op rest ih =>
    obtain ⟨v₁, ok₁, sim₁⟩ := step_refines sim admissible.1
    obtain ⟨v₂, ok₂, sim₂⟩ := ih sim₁ admissible.2
    refine ⟨v₂, ?_, sim₂⟩
    simp only [run, ok₁]
    show ((run v₁ rest) >>= _) = _
    rw [ok₂]
    rfl

end

/-- A stack of empty caches over a base; `true` stands for a `CoinsViewOverlay`. -/
def emptyStack (b : CoinsViewBottom) : List Bool → CoinsView
  | [] => .bottom b
  | isOverlay :: rest => .cache (CacheLayer.new isOverlay) (emptyStack b rest)

def emptyReference (b : CoinsViewBottom) (overlays : List Bool) : Reference :=
  ⟨overlays.map fun _ => fun _ => none, b.getCoin⟩

lemma emptyStack_simulates (b : CoinsViewBottom) (overlays : List Bool) :
  Simulates (emptyStack b overlays) (emptyReference b overlays) := by
  induction overlays with
  | nil => exact ⟨trivial, rfl⟩
  | cons isOverlay rest ih => exact ih.addLayer isOverlay

/-- Every run over a stack of coins caches agrees with the reference: no operation throws,
all answers are equal, and in the end every lookup at every depth is too. -/
theorem coins_stack_refines_reference (b : CoinsViewBottom) (overlays : List Bool)
  (ops : List Op) (admissible : AdmissibleRun (emptyReference b overlays) ops) :
  ∃ v, run (emptyStack b overlays) ops
      = .ok ((Reference.run (emptyReference b overlays) ops).1, v) ∧ ∀ depth o,
      let shown := Reference.lookup (Reference.run (emptyReference b overlays) ops).2 depth o
      (atDepth (fun v => (v.peekCoin o, v)) depth v).1 = shown ∧
      (atDepth (·.getCoin o) depth v).1 = shown ∧
      (atDepth (haveCoin o) depth v).1 = shown.isSome ∧
      (atDepth (accessCoin o) depth v).1 = shown.getD Coin.empty := by
  obtain ⟨v, ok, sim⟩ := run_refines (emptyStack_simulates b overlays) ops admissible
  refine ⟨v, ok, fun depth o => ⟨?_, ?_, ?_, ?_⟩⟩
  · exact (atDepth_looksUp (fun shown => shown o)
      (fun _ hv => peekCoin_looksUp hv o) depth sim).answer
  · exact (atDepth_looksUp (fun shown => shown o)
      (fun _ hv => getCoin_looksUp hv o) depth sim).answer
  · exact (atDepth_looksUp (fun shown => (shown o).isSome)
      (haveCoin_view_looksUp o) depth sim).answer
  · exact (atDepth_looksUp (fun shown => (shown o).getD Coin.empty)
      (accessCoin_view_looksUp o) depth sim).answer

def sampleOutPoint : COutPoint := ⟨7, 0⟩
def sampleCoin : Coin := ⟨⟨50, [0x51]⟩, true, 1⟩

/-- A coin added to an overlay, flushed, spent and synced is gone from the cache below. -/
theorem coins_stack_refines_reference_sample :
  ∃ v, run (emptyStack CoinsViewBottom.new [true, false])
      [.addCoin sampleOutPoint sampleCoin false, .flush, .haveCoin 1 sampleOutPoint,
        .spendCoin sampleOutPoint, .sync, .accessCoin 1 sampleOutPoint]
    = .ok ([.done, .done, .have true, .moved sampleCoin, .done, .accessed Coin.empty], v) := by
  obtain ⟨v, ok, -⟩ := coins_stack_refines_reference CoinsViewBottom.new [true, false]
    [.addCoin sampleOutPoint sampleCoin false, .flush, .haveCoin 1 sampleOutPoint,
      .spendCoin sampleOutPoint, .sync, .accessCoin 1 sampleOutPoint]
    ⟨⟨by decide, by decide⟩, trivial, trivial, trivial, trivial, trivial, trivial⟩
  exact ⟨v, ok⟩

end CoinsRefinement
