import UbsAtomic.Conc.Machine
import UbsAtomic.Lock.State

/-! The spin lock (`ub_spin_lock.cpp`): one owner word behind an initialisation state.

        init_state   EMPTY ──CAS──▶ INITING ──owner := none──▶ ──store──▶ READY
                       ▲               │
                       └── a waiter has run out of rounds

    A waiter that has run out of rounds hands the initialisation to somebody else without stopping
    the party that began it. READY is never left, and nobody owns the lock before it, so clearing
    the owner word does no harm unless it happens after READY. -/

namespace UbsAtomic

open Conc Conc.Prog

namespace Spin

/-- `ub_spin_lock`. -/
structure Mem where
  initState : ℤ
  lockOwner : ℕ
  deriving DecidableEq

/-- The steps that matter: the initialiser's store to the owner word. -/
inductive Label where | plain | clearOwner
  deriving DecidableEq

instance : Inhabited Label := ⟨.plain⟩

abbrev Call := Prog Mem Label

def initState : Place Mem ℤ := ⟨(·.initState), fun v m => { m with initState := v }⟩

def lockOwner : Place Mem ℕ := ⟨(·.lockOwner), fun v m => { m with lockOwner := v }⟩

def spinInitEmpty : ℤ := 0
def spinIniting : ℤ := 1
def spinReady : ℤ := 2
def spinYieldInterval : ℕ := 1024
def spinInitWaitRounds : ℕ := 1024 * 1024

/-! ### The calls -/

/-- The rounds an initialiser gives another one to finish. -/
def waitRound (i : ℕ) : Call (ℕ ⊕ Bool) := do
  if i < spinInitWaitRounds then
    let state ← load initState
    if state = spinReady then
      return .inr true
    return .inl (i + 1)
  else
    return .inr false

def initRound (_ : Unit) : Call (Unit ⊕ Unit) := do
  let state ← load initState
  if state = spinReady then
    return .inr ()
  if state = spinInitEmpty ∨ (state ≠ spinIniting ∧ state ≠ spinReady) then
    let taken ← cas initState state spinIniting
    if taken.1 then
      storeAt .clearOwner lockOwner lockInvalidOwner
      store initState spinReady
      return .inr ()
    return .inl ()
  let ready ← loop waitRound 0
  if ready then
    return .inr ()
  let _ ← cas initState spinIniting spinInitEmpty
  return .inl ()

/-- `SpinLock::lock_init`. -/
def lockInit : Call Unit := loop initRound ()

/-- `SpinLock::is_ready`. -/
def isReady : Call Bool := do
  let state ← load initState
  return state = spinReady

/-- One attempt; every 1024 attempts the deadline is looked at. -/
def lockRound (identify : ℕ) (spinRound : ℕ) : Call (ℕ ⊕ Result) := do
  let taken ← casWeak lockOwner lockInvalidOwner identify
  if taken.1 then
    return .inr .success
  if u32 (spinRound + 1) % spinYieldInterval = 0 then
    let late ← choose
    if late ≠ 0 then
      return .inr .timeout
    return .inl (u32 (spinRound + 1))
  return .inl (u32 (spinRound + 1))

/-- `SpinLock::lock`. -/
def lock (l : Location) : Call Result := do
  if l.nodeId.val ≥ ubMaxNodes then
    return .error
  let ready ← isReady
  if ready = false then
    return .error
  let owner ← load lockOwner
  if owner = makeGlobalOwner l then
    return .error
  loop (lockRound (makeGlobalOwner l)) 0

/-- `SpinLock::unlock`. -/
def unlock (l : Location) : Call Result := do
  if l.nodeId.val ≥ ubMaxNodes then
    return .error
  let ready ← isReady
  if ready = false then
    return .error
  let owner ← load lockOwner
  if owner ≠ makeGlobalOwner l then
    return .error
  let released ← cas lockOwner (makeGlobalOwner l) lockInvalidOwner
  if released.1 = false then
    return .error
  return .success

/-! ### The parties -/

inductive Op where | lockInit | lock | unlock
  deriving DecidableEq

/-- Where a party is: it holds from a SUCCESS of `lock` until its `unlock` begins. -/
inductive Phase where | free | holding | releasing
  deriving DecidableEq

/-- Every party, named by its location, may make any call at any time. -/
def client : Client Location Mem Label Op Result Phase where
  code
    | _, .lockInit => do
      lockInit
      return .success
    | l, .lock => lock l
    | l, .unlock => unlock l
  allowed := fun _ _ _ => true
  start
    | .holding, .unlock => .releasing
    | h, _ => h
  finish
    | _, .lock, .success => .holding
    | .releasing, .unlock, _ => .free
    | h, _, _ => h

abbrev SpinConfig := Config Location Mem Label Op Result Phase

/-- Zeroed memory. -/
def SpinConfig.init : SpinConfig := ⟨⟨0, 0⟩, fun _ => .free, fun _ => none⟩

/-! ### Why it excludes -/

/-- What a party knows: that READY has been reached, and that the lock is its own. -/
inductive Ghost where | fresh | ready | owns
  deriving DecidableEq

/-- After having seen READY. -/
def Ghost.seen : Ghost → Ghost
  | .fresh => .ready
  | g => g

structure Inv (s : Mem) (γ : Location → Ghost) : Prop where
  ready : ∀ l, γ l ≠ .fresh → s.initState = spinReady
  owner : ∀ l, γ l = .owns → s.lockOwner = makeGlobalOwner l ∧ l.nodeId.val < ubMaxNodes

/-- `lock_init` clears the owner word only as long as nobody has reached READY. -/
def ClearsEarly (_ : Location → Option Label) (_ : Location) (e : Label) (s : Mem) : Prop :=
  e = .clearOwner → s.initState ≠ spinReady

def outline : Outline Location Mem Label Ghost :=
  ⟨Inv, fun _ _ => True, ClearsEarly, fun _ _ _ => True⟩

/-- A party that holds knows that it owns. -/
def Keeps (l : Location) (h : Phase) (g : Ghost) : Prop :=
  h = .holding → g = .owns ∧ l.nodeId.val < ubMaxNodes

def spec : Spec Location Mem Label Op Result Phase Ghost where
  toOutline := outline
  rest := fun l h g => Keeps l h g ∧ h ≠ .releasing
  moves := fun l h _ => Keeps l h
  good := fun _ h op r => h = .releasing → op = .unlock → r = .success

section Steps

variable {l : Location} {h : Phase} {g : Ghost}

theorem Keeps.seen (hk : Keeps l h g) : Keeps l h g.seen := fun hh => by
  rw [(hk hh).1]
  exact ⟨rfl, (hk hh).2⟩

/-- Nobody knows more, and what is known stays true. -/
theorem Inv.seen {s : Mem} {γ : Location → Ghost} (hi : Inv s γ) (hg : γ l = g)
    (hr : s.initState = spinReady) : Inv s (Function.update γ l g.seen) := by
  refine ⟨fun _ _ => hr, fun u hu => ?_⟩
  by_cases hul : u = l
  · subst hul
    refine hi.owner u ?_
    rw [Function.update_self] at hu
    cases g <;> simp_all [Ghost.seen]
  · exact hi.owner u (by rwa [Function.update_of_ne hul] at hu)

theorem wp_isReady (hk : Keeps l h g) :
    wp outline l (fun _ => Keeps l h) isReady
      (fun b g' => b = true ∧ g' = g.seen ∨ b = false ∧ g = .fresh ∧ g' = g) g := by
  refine wp_bind (wp_read trivial fun s γ hpre => ⟨trivial, ?_⟩)
  by_cases hr : s.initState = spinReady
  · refine ⟨g.seen, hk.seen, hpre.inv.seen hpre.own hr, trivial, trivial, .inl ⟨?_, rfl⟩⟩
    exact decide_eq_true hr
  · refine ⟨g, hk, by rw [hpre.update]; exact hpre.inv, trivial, trivial, .inr ⟨?_, ?_, rfl⟩⟩
    · exact decide_eq_false hr
    · by_contra hg
      exact hr (hpre.inv.ready l (hpre.own ▸ hg))

/-- READY is never left: nobody who has seen it is deceived. -/
theorem Inv.setState {s : Mem} {γ : Location → Ghost} (hi : Inv s γ) {v : ℤ}
    (hs : s.initState = spinReady → v = spinReady) : Inv { s with initState := v } γ :=
  ⟨fun l hl => hs (hi.ready l hl), hi.owner⟩

theorem wp_load {α : Type} {p : Place Mem α} (hk : Keeps l h g) :
    wp outline l (fun _ => Keeps l h) (load p) (fun _ g' => g' = g) g :=
  wp_learn trivial trivial hk fun _ _ _ => ⟨trivial, rfl⟩

theorem wp_casState (hk : Keeps l h g) {x v : ℤ} (hx : x ≠ spinReady) :
    wp outline l (fun _ => Keeps l h) (cas initState x v) (fun _ g' => g' = g) g := by
  refine wp_cas trivial fun s γ hpre => ⟨trivial, fun hs => ?_, fun _ => ?_⟩
  · refine ⟨g, hk, ?_, trivial, rfl⟩
    rw [hpre.update]
    exact hpre.inv.setState fun hr => absurd (hs.symm.trans hr) hx
  · exact ⟨g, hk, by rw [hpre.update]; exact hpre.inv, trivial, rfl⟩

/-- Nobody owns the lock as long as READY has not been reached. -/
theorem wp_clearOwner (hk : Keeps l h g) :
    wp outline l (fun _ => Keeps l h) (storeAt .clearOwner lockOwner lockInvalidOwner)
      (fun _ g' => g' = g) g := by
  refine wp_store trivial fun s γ hpre => ⟨trivial, g, hk, ?_, trivial, rfl⟩
  obtain ⟨_, -, hcond⟩ := hpre.run
  rw [hpre.update]
  refine ⟨hpre.inv.ready, fun u hu => absurd (hpre.inv.ready u (by rw [hu]; decide)) (hcond rfl)⟩

theorem wp_waitRound (hk : Keeps l h g) (i : ℕ) :
    wp outline l (fun _ => Keeps l h) (waitRound i) (fun _ g' => g' = g) g := by
  unfold waitRound
  split
  · refine wp_bind (wp_mono (wp_load hk) ?_)
    rintro state _ - rfl
    split
    · exact ⟨trivial, rfl⟩
    · exact ⟨trivial, rfl⟩
  · exact ⟨trivial, rfl⟩

/-- A loop whose every round leaves the ghost alone. -/
theorem wp_rounds {ι β : Type} {body : ι → Call (ι ⊕ β)} {i : ι}
    (hbody : ∀ j, wp outline l (fun _ => Keeps l h) (body j) (fun _ g' => g' = g) g) :
    wp outline l (fun _ => Keeps l h) (loop body i) (fun _ g' => g' = g) g := by
  refine wp_loop (fun _ g' => g' = g) trivial rfl ?_
  rintro j _ rfl
  refine wp_mono (hbody j) ?_
  rintro (_ | _) _ - rfl
  · exact rfl
  · exact rfl

theorem wp_initRound (hk : Keeps l h g) :
    wp outline l (fun _ => Keeps l h) (initRound ()) (fun _ g' => g' = g) g := by
  refine wp_bind (wp_mono (wp_load hk) ?_)
  rintro state _ - rfl
  split
  · exact ⟨trivial, rfl⟩
  rename_i hready
  split
  · -- this party begins the initialisation
    refine wp_bind (wp_mono (wp_casState hk hready) ?_)
    rintro taken _ - rfl
    split
    · refine wp_bind (wp_mono (wp_clearOwner hk) ?_)
      rintro _ _ - rfl
      refine wp_bind (wp_store trivial fun s γ hpre => ⟨trivial, _, hk, ?_, trivial, trivial, rfl⟩)
      rw [hpre.update]
      exact hpre.inv.setState fun _ => rfl
    · exact ⟨trivial, rfl⟩
  · -- somebody else has begun it: wait, then take it away
    refine wp_bind (wp_mono (wp_rounds (wp_waitRound hk)) ?_)
    rintro ready _ - rfl
    split
    · exact ⟨trivial, rfl⟩
    · refine wp_bind (wp_mono (wp_casState hk (by decide)) ?_)
      rintro _ _ - rfl
      exact ⟨trivial, rfl⟩

theorem wp_lockInit (hk : Keeps l h g) :
    wp outline l (fun _ => Keeps l h) lockInit (fun _ g' => g' = g) g :=
  wp_rounds fun _ => wp_initRound hk

/-- The owner word was free, so nobody else owns the lock. -/
theorem Inv.take {s : Mem} {γ : Location → Ghost} (hi : Inv s γ) (hg : γ l ≠ .fresh)
    (hl : l.nodeId.val < ubMaxNodes) (hs : s.lockOwner = lockInvalidOwner) :
    Inv { s with lockOwner := makeGlobalOwner l } (Function.update γ l .owns) := by
  refine ⟨fun _ _ => hi.ready l hg, fun u hu => ?_⟩
  by_cases hul : u = l
  · subst hul
    exact ⟨rfl, hl⟩
  · rw [Function.update_of_ne hul] at hu
    obtain ⟨ho, hv⟩ := hi.owner u hu
    exact absurd (ho.symm.trans hs) (makeGlobalOwner_ne_invalid hv)

/-- The owner gives the word back. -/
theorem Inv.drop {s : Mem} {γ : Location → Ghost} (hi : Inv s γ) (hg : γ l ≠ .fresh)
    (hs : s.lockOwner = makeGlobalOwner l) :
    Inv { s with lockOwner := lockInvalidOwner } (Function.update γ l .ready) := by
  refine ⟨fun _ _ => hi.ready l hg, fun u hu => ?_⟩
  by_cases hul : u = l
  · subst hul
    simp at hu
  · rw [Function.update_of_ne hul] at hu
    exact absurd (makeGlobalOwner_injective ((hi.owner u hu).1.symm.trans hs)) hul

theorem wp_lockRound (hh : h ≠ .holding) (hg : g ≠ .fresh) (hl : l.nodeId.val < ubMaxNodes)
    (i : ℕ) :
    wp outline l (fun _ => Keeps l h) (lockRound (makeGlobalOwner l) i)
      (fun r g' => Sum.elim (fun _ => g' = g) (fun b => b = .success → g' = .owns) r) g := by
  have hk : ∀ g', Keeps l h g' := fun _ hh' => absurd hh' hh
  refine wp_bind (wp_casWeak trivial fun s γ hpre => ⟨trivial, fun hs => ?_, ?_⟩)
  · exact ⟨.owns, hk _, hpre.inv.take (hpre.own ▸ hg) hl hs, trivial, trivial, fun _ => rfl⟩
  · refine ⟨g, hk _, by rw [hpre.update]; exact hpre.inv, trivial, ?_⟩
    simp only [Bool.false_eq_true, if_false]
    split
    · refine wp_bind ⟨trivial, fun s γ hpre => ⟨trivial, fun c s' b hf => ?_⟩⟩
      obtain ⟨rfl, rfl⟩ : s = s' ∧ c = b := by simpa using hf
      refine ⟨g, hk _, by rw [hpre.update]; exact hpre.inv, trivial, ?_⟩
      dsimp only
      split
      · exact ⟨trivial, by simp⟩
      · exact ⟨trivial, rfl⟩
    · exact ⟨trivial, rfl⟩

theorem wp_lock (hk : Keeps l h g) :
    wp outline l (fun _ => Keeps l h) (lock l) (fun r g' => Keeps l (client.finish h .lock r) g') g := by
  have herr : ∀ g', Keeps l h g' → Keeps l (client.finish h .lock .error) g' := by
    intro g' hg'
    cases h <;> exact hg'
  unfold lock
  split
  · exact ⟨trivial, herr g hk⟩
  rename_i hl
  rw [ge_iff_le, not_le] at hl
  refine wp_bind (wp_mono (wp_isReady hk) ?_)
  rintro ready g₁ - (⟨rfl, rfl⟩ | ⟨rfl, -, rfl⟩)
  swap
  · exact ⟨trivial, herr _ hk⟩
  rw [if_neg (by decide)]
  -- a party that owns the lock is told so
  refine wp_bind (wp_learn trivial trivial hk.seen fun s γ hpre => ⟨trivial, ?_⟩)
  split
  · exact ⟨trivial, herr _ hk.seen⟩
  rename_i howner
  have hh : h ≠ .holding := by
    rintro rfl
    have hown : γ l = .owns := by rw [hpre.own, (hk rfl).1]; rfl
    exact howner (hpre.inv.owner l hown).1
  have hg : g.seen ≠ .fresh := by cases g <;> simp [Ghost.seen]
  refine wp_loop (fun _ g' => g' = g.seen) trivial rfl ?_
  rintro i _ rfl
  refine wp_mono (wp_lockRound hh hg hl i) ?_
  rintro (j | r) g' - hr
  · exact hr
  · cases r <;> cases h <;> simp_all [Keeps, client]

/-- The owner's `unlock` succeeds. -/
theorem wp_unlock (hh : h ≠ .holding)
    (ho : h = .releasing → g = .owns ∧ l.nodeId.val < ubMaxNodes) :
    wp outline l (fun _ => Keeps l h) (unlock l) (fun r _ => h = .releasing → r = .success) g := by
  have hk : ∀ g', Keeps l h g' := fun _ hh' => absurd hh' hh
  have howner : ∀ e s γ, outline.Pre l e g.seen s γ → h = .releasing →
      s.lockOwner = makeGlobalOwner l := by
    intro e s γ hpre hr
    refine (hpre.inv.owner l ?_).1
    rw [hpre.own, (ho hr).1]
    rfl
  unfold unlock
  split
  · rename_i hl
    exact ⟨trivial, fun hr => absurd (ho hr).2 (not_lt.mpr hl)⟩
  refine wp_bind (wp_mono (wp_isReady (hk g)) ?_)
  rintro ready g₁ - (⟨rfl, rfl⟩ | ⟨rfl, hg, rfl⟩)
  swap
  · exact ⟨trivial, fun hr => by simp [hg] at ho; simp [ho] at hr⟩
  rw [if_neg (by decide)]
  refine wp_bind (wp_learn trivial trivial (hk _) fun s γ hpre => ⟨trivial, ?_⟩)
  split
  · rename_i hne
    exact ⟨trivial, fun hr => absurd (howner _ s γ hpre hr) hne⟩
  have hg : g.seen ≠ .fresh := by cases g <;> simp [Ghost.seen]
  refine wp_bind (wp_cas trivial fun s γ hpre => ⟨trivial, fun hs => ?_, fun hs => ?_⟩)
  · exact ⟨.ready, hk _, hpre.inv.drop (hpre.own ▸ hg) hs, trivial, trivial, fun _ => rfl⟩
  · refine ⟨g.seen, hk _, by rw [hpre.update]; exact hpre.inv, trivial, trivial, fun hr => ?_⟩
    exact absurd (howner _ s γ hpre hr) hs

end Steps

/-! ### Every run -/

theorem start_of_ne {h : Phase} {op : Op} (hop : op ≠ .unlock) : client.start h op = h := by
  cases h <;> cases op <;> first | rfl | exact absurd rfl hop

theorem proved : spec.Proved client where
  stay := fun _ _ _ _ hk => hk
  idle := fun _ _ _ hr => ⟨trivial, hr.1⟩
  start := by
    rintro l h op g - ⟨hk, -⟩
    cases h <;> cases op <;> simp_all [spec, client, Keeps]
  call := by
    rintro l h op g - ⟨hk, hr⟩
    cases op with
    | lockInit =>
      rw [start_of_ne (by decide)]
      refine wp_bind (wp_mono (wp_lockInit hk) ?_)
      rintro _ _ - rfl
      refine ⟨trivial, fun hh => absurd hh hr, ?_⟩
      cases h <;> exact ⟨hk, hr⟩
    | lock =>
      rw [start_of_ne (by decide)]
      refine wp_mono (wp_lock hk) fun r g' _ hg' => ⟨fun hh => absurd hh hr, hg', ?_⟩
      cases r <;> cases h <;> simp_all [client]
    | unlock =>
      have hstart : client.start h .unlock ≠ .holding ∧
          (client.start h .unlock = .releasing → h = .holding) := by
        cases h <;> simp_all [client]
      refine wp_mono (wp_unlock hstart.1 fun hs => hk (hstart.2 hs)) fun r g' _ hg' => ?_
      have hfree : client.finish (client.start h .unlock) .unlock r = .free := by
        cases h <;> simp_all [client]
      rw [hfree]
      exact ⟨fun hs _ => hg' hs, by simp [Keeps], by decide⟩

theorem holds_init : spec.Holds client SpinConfig.init fun _ => .fresh where
  inv := ⟨by simp, by simp⟩
  moved := fun _ => ⟨.fresh, by simp [spec, SpinConfig.init, Keeps]⟩
  idle := fun _ _ => ⟨by simp [SpinConfig.init, Keeps], by simp [SpinConfig.init]⟩
  busy := by simp [SpinConfig.init]

/-- In every run in which `lock_init` clears the owner word only before READY, at most one party
    holds the lock and its `unlock` succeeds. -/
theorem safety_of_clearsEarly {c : SpinConfig}
    (hc : Config.Reach client ClearsEarly SpinConfig.init c) :
    (∀ l l', c.held l = .holding → c.held l' = .holding → l = l') ∧
      ∀ l r, c.held l = .releasing → c.pc l = some (.unlock, .ret r) → r = .success := by
  obtain ⟨γ, hγ⟩ := proved.sound holds_init hc
  refine ⟨fun l l' hl hl' => ?_, fun l r hl hp => hγ.returned hp hl rfl⟩
  have howner : ∀ u, c.held u = .holding → c.mem.lockOwner = makeGlobalOwner u := fun u hu => by
    obtain ⟨_, hk⟩ := hγ.moved u
    exact (hγ.inv.owner u (hk hu).1).1
  exact makeGlobalOwner_injective ((howner l hl).symm.trans (howner l' hl'))

/-- `ClearsEarly`, as a check on a configuration. -/
def clearsEarly (c : SpinConfig) (t : Location) : Bool :=
  match c.labels t with
  | some .clearOwner => c.mem.initState ≠ spinReady
  | _ => true

theorem meets_of_clearsEarly (c : SpinConfig) (t : Location) (h : clearsEarly c t = true) :
    c.Meets ClearsEarly t := by
  rintro e he rfl
  simpa [clearsEarly, he] using h

/-- Two parties initialise at the same time, one of them locks: nobody else holds the lock. -/
theorem safety_of_clearsEarly_locked :
    ∃ c, Config.Reach client ClearsEarly SpinConfig.init c ∧ c.held ⟨1, 0⟩ = .holding ∧
      ∀ l, c.held l = .holding → l = ⟨1, 0⟩ := by
  have hrun : ∃ c, Config.Reach client ClearsEarly SpinConfig.init c ∧
      c.held ⟨1, 0⟩ = .holding :=
    Config.reach_of_runAll meets_of_clearsEarly
      [.call ⟨1, 0⟩ .lockInit, .upTo ⟨1, 0⟩ .clearOwner, .call ⟨1, 1⟩ .lockInit,
        .finish ⟨1, 0⟩, .finish ⟨1, 1⟩, .call ⟨1, 0⟩ .lock, .finish ⟨1, 0⟩] (by decide +kernel)
  obtain ⟨c, hc, hl⟩ := hrun
  exact ⟨c, hc, hl, fun l hl' => (safety_of_clearsEarly hc).1 l _ hl' hl⟩

/-! ### The late initialiser -/

/-- A waiter that never sees READY uses up all its rounds. -/
theorem steps_waitRound {s : Mem} (hs : s.initState ≠ spinReady) {β : Type}
    (k : Bool → Call β) {i : ℕ} (hi : i ≤ spinInitWaitRounds) :
    Steps (.iter waitRound i k) s (k false) s := by
  induction hn : spinInitWaitRounds - i generalizing i with
  | zero =>
    refine .iter ?_
    rw [waitRound, if_neg (by omega)]
    exact .refl _ _
  | succ n ih =>
    refine .iter ?_
    rw [waitRound, if_pos (by omega)]
    refine .act (c := 0) rfl ?_
    show Steps ((if s.initState = spinReady then _ else _ : Call (ℕ ⊕ Bool)).bind _) s _ s
    rw [if_neg hs]
    exact ih (by omega) (by omega)

/-- Party 1 begins the initialisation and is delayed before it clears the owner word. Party 2 waits
    in vain, takes the initialisation over and locks. Then party 1 goes on. -/
def takeOver : List (Config.Piece Location Label Op) :=
  [.finish ⟨2, 0⟩, .call ⟨2, 0⟩ .lock, .finish ⟨2, 0⟩, .finish ⟨1, 0⟩,
    .call ⟨3, 0⟩ .lock, .finish ⟨3, 0⟩]

/-- Party 3 locks while party 2 holds the lock. -/
theorem lateClear_violated :
    ∃ c, Config.Reachable client SpinConfig.init c ∧ c.held ⟨2, 0⟩ = .holding ∧
      c.held ⟨3, 0⟩ = .holding := by
  have hcall : Config.Reachable client SpinConfig.init _ :=
    .step .init (fun _ _ => trivial) (t := ⟨1, 0⟩) (m := .call .lockInit) rfl
  have hdelayed := hcall.steps (t := ⟨1, 0⟩) rfl
    (.iter (.act (c := 0) rfl (.act (c := 0) rfl (.refl _ _))))
  have hcall' : Config.Reachable client SpinConfig.init _ :=
    .step hdelayed (fun _ _ => trivial) (t := ⟨2, 0⟩) (m := .call .lockInit) rfl
  have hwaited := hcall'.steps (t := ⟨2, 0⟩) rfl
    (.iter (.act (c := 0) rfl (steps_waitRound (by decide) _ (Nat.zero_le _))))
  exact hwaited.runAll takeOver (by decide +kernel)

end Spin
end UbsAtomic
