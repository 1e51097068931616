import UbsAtomic.Pool.PoolRuns

/-! The destructor and the workers that sleep.

        worker        flag? ─▶ queue? ────────────────────▶ block ─▶ …
        destructor              store flag ─▶ notify_all ─▶ join

    `~ThreadPool` stores the flag and notifies without the mutex. A worker that has tested the flag
    and has not blocked yet misses the notification, and nobody will send another one. -/

namespace UbsAtomic

open Conc Conc.Prog

namespace Pool

/-- Whatever happens from here on, nobody notifies. -/
def Silent (n : ℕ) (x : PoolConfig) : Prop :=
  ∀ y, Config.Reachable (client n) x y →
    ∀ p, y.labels p ≠ some .notifyOne ∧ y.labels p ≠ some .notifyAll

/-- The destructor is past `notify_all`, a worker is blocked and has not been notified, there is
    nothing to do, and no notification will come. -/
def Stranded (n : ℕ) (x : PoolConfig) : Prop :=
  x.mem.notifiedAll = true ∧ (∃ i, x.mem.blocked i = some false) ∧ x.mem.taskQueue = [] ∧ Silent n x

/-! ### Where no worker is about to block -/

/-- In every run in which no worker stands between its test of the flag and blocking when the
    destructor notifies, nobody is left asleep. -/
theorem not_stranded_of_noneAsked {n : ℕ} {x : PoolConfig}
    (hx : Config.Reach (client n) NoneAsked (PoolConfig.init n) x) : ¬ Stranded n x := by
  rintro ⟨hall, ⟨i, hi⟩, -, -⟩
  obtain ⟨γ, hγ⟩ := (proved True n).sound (holds_init True n) (hx.mono fun _ _ _ _ hc _ => hc)
  exact hγ.inv.awake.blocked trivial hall i hi

/-- `NoneAsked`, as a check on a configuration in which nobody but `L` is in a call. -/
def noneAskedHere (L : List Party) (x : PoolConfig) (p : Party) : Bool :=
  match x.labels p with
  | some .notifyAll => L.all fun q => x.labels q ≠ some .testQueue && x.labels q ≠ some .block
  | _ => true

theorem meets_of_noneAskedHere (L : List Party) (x : PoolConfig) (p : Party)
    (hL : ∀ q, q ∉ L → x.pc q = none) (h : noneAskedHere L x p = true) : x.Meets NoneAsked p := by
  rintro e he rfl q
  rw [noneAskedHere, he] at h
  by_cases hq : q ∈ L
  · simpa using List.all_eq_true.mp h q hq
  · simp [Config.labels, hL q hq]

/-- A worker that has blocked before is woken by the destructor. -/
theorem not_stranded_of_noneAsked_woken :
    ∃ x, Config.Reach (client 1) NoneAsked (PoolConfig.init 1) x ∧ x.mem.notifiedAll = true ∧
      x.mem.blocked 0 = some true ∧ ¬ Stranded 1 x := by
  have hrun : ∃ x, Config.Reach (client 1) NoneAsked (PoolConfig.init 1) x ∧
      (x.mem.notifiedAll = true ∧ x.mem.blocked 0 = some true) ∧ _ :=
    Config.reach_of_runAll_among [.worker 0, .destructor] (meets_of_noneAskedHere _)
      [.call (.worker 0) .run, .upTo (.worker 0) .block, .steps (.worker 0) [0],
        .call .destructor .destroy, .upTo .destructor (.join 0)] (by simp [Config.Piece.thread])
      (fun _ => rfl) (by decide +kernel)
  obtain ⟨x, hx, ⟨hall, hwoken⟩, -⟩ := hrun
  exact ⟨x, hx, hall, hwoken, not_stranded_of_noneAsked hx⟩

/-! ### After the flag -/

/-- Steps that notify nobody, and after which the flag is still set. -/
abbrev Mute {α : Type} (c : Call α) : Prop :=
  Quiet (fun s s' => s.shuttingDown = true → s'.shuttingDown = true)
    (fun e => e ≠ .notifyOne ∧ e ≠ .notifyAll) c

/-- What follows once the flag is set and the destructor has begun. -/
def afterFlag : Spec Party Mem Label Op Outcome Past Unit where
  inv := fun s _ => s.shuttingDown = true
  lab := fun e _ => e ≠ some .notifyOne ∧ e ≠ some .notifyAll
  cond := fun _ _ _ _ => True
  claim := fun _ _ _ => True
  rest := fun p h _ => p = .destructor → h.begun = true
  moves := fun p h _ _ => p = .destructor → h.begun = true
  good := fun _ _ _ _ => True

theorem afterFlag_lab (g : Unit) : afterFlag.lab none g := by simp [afterFlag]

section Mute

variable {p : Party} {i : ℕ}

theorem mute_lockMtx (p : Party) : Mute (lockMtx p) := by
  refine ⟨by decide, fun s c s' b hf => ?_, fun _ => trivial⟩
  dsimp only at hf
  split at hf
  · cases hf
    exact id
  · cases hf

theorem mute_unlockMtx : Mute unlockMtx :=
  ⟨by decide, fun s c s' b hf => by cases hf; exact id, fun _ => trivial⟩

theorem mute_block : Mute (block i) :=
  ⟨by decide, fun s c s' b hf => by cases hf; exact id, fun _ => trivial⟩

theorem mute_wakeUp : Mute (wakeUp i) := by
  refine ⟨by decide, fun s c s' b hf => ?_, fun _ => trivial⟩
  dsimp only at hf
  split at hf
  · cases hf
    exact id
  · cases hf

theorem mute_load {α : Type} {place : Place Mem α} : Mute (load place) :=
  .read (by decide) fun _ => id

theorem mute_popTask : Mute popTask := .rmw (by decide) fun _ _ => id

theorem mute_runTask {task : ℕ} : Mute (runTask task) :=
  ⟨by decide, fun s c s' b hf => by cases hf; exact id, fun _ => trivial⟩

theorem mute_waitForTask : Mute (waitForTask i) := by
  refine .bind (.loop fun _ => ?_) fun _ => .bind mute_load fun _ => trivial
  refine .bind mute_load fun _ => .ite trivial (.bind (.read (by decide) fun _ => id) fun _ => ?_)
  exact .ite trivial (.bind mute_block fun _ => .bind mute_wakeUp fun _ =>
    .bind (mute_lockMtx _) fun _ => trivial)

theorem mute_tryDequeueTask : Mute (tryDequeueTask i) := by
  refine .bind (mute_lockMtx _) fun _ => .bind mute_load fun _ =>
    .bind (.ite mute_waitForTask trivial) fun _ => .ite ?_ ?_
  · exact .bind mute_popTask fun _ => .bind mute_unlockMtx fun _ => trivial
  · exact .bind mute_unlockMtx fun _ => trivial

theorem mute_runWorkerLoop : Mute (runWorkerLoop i) := by
  refine .bind (.loop fun _ => ?_) fun _ => .bind (.bind (mute_lockMtx _) fun _ => .loop fun _ => ?_)
    fun _ => ?_
  · refine .bind mute_load fun _ => .ite trivial (.bind mute_tryDequeueTask fun r => ?_)
    cases r with
    | none => trivial
    | some task => exact .bind mute_runTask fun _ => trivial
  · refine .bind mute_load fun _ => .ite (.bind mute_unlockMtx fun _ => trivial) ?_
    exact .bind mute_popTask fun _ => .bind mute_unlockMtx fun _ => .bind mute_runTask fun _ =>
      .bind (mute_lockMtx _) fun _ => trivial
  · exact ⟨by decide, fun s c s' b hf => by cases hf; exact id, fun _ => trivial⟩

theorem mute_joinAll (is : List ℕ) : Mute (joinAll is) := by
  induction is with
  | nil => trivial
  | cons i is ih =>
    refine ⟨by simp, fun s c s' b hf => ?_, fun _ => ih⟩
    dsimp only at hf
    split at hf
    · cases hf
      exact id
    · cases hf

/-- Mute calls are no trouble. -/
theorem Mute.wp {α : Type} {c : Call α} (hc : Mute c) {h : Past}
    (hp : p = .destructor → h.begun = true) :
    wp afterFlag.toOutline p (afterFlag.moves p h) c (fun _ _ => True) () := by
  refine wp_mono (Quiet.wp hc ⟨fun s s' _ _ hs hi => hs hi, afterFlag_lab _, fun e he => ?_,
    fun _ _ _ => trivial, hp⟩) fun _ _ _ _ => trivial
  simpa [afterFlag] using he

/-- With the flag set, `enqueue` throws. -/
theorem wp_enqueue_throws {h : Past} (hp : p = .destructor → h.begun = true) :
    wp afterFlag.toOutline p (afterFlag.moves p h) (enqueue p) (fun r _ => ∃ task, r = .threw task)
      () := by
  have hlab : ∀ e : Label, e ≠ .notifyOne ∧ e ≠ .notifyAll → afterFlag.lab (some e) () :=
    fun e he => by simpa [afterFlag] using he
  refine wp_bind (wp_rmw (hlab _ (by decide)) fun s γ hpre =>
    ⟨trivial, (), hp, hpre.inv, afterFlag_lab _, ?_⟩)
  refine wp_bind (wp_mono ((mute_lockMtx p).wp hp) fun _ _ _ _ => ?_)
  refine wp_bind (wp_read (hlab _ (by decide)) fun s γ hpre =>
    ⟨trivial, (), hp, hpre.inv, afterFlag_lab _, ?_⟩)
  have hget : shuttingDown.get s = true := hpre.inv
  rw [hget]
  refine wp_bind (wp_mono (mute_unlockMtx.wp hp) fun _ _ _ _ => ?_)
  exact ⟨afterFlag_lab _, _, rfl⟩

end Mute

theorem afterFlag_proved (n : ℕ) : afterFlag.Proved (client n) where
  stay := fun _ _ _ _ hk => hk
  idle := fun _ _ _ hr => ⟨afterFlag_lab _, hr⟩
  start := fun _ _ op _ _ hr hp => by cases op <;> simp [client, hr hp]
  call := by
    rintro p h op ⟨⟩ ha hr
    cases p with
    | worker i =>
      cases op with
      | run =>
        refine wp_bind (wp_mono (mute_runWorkerLoop.wp (by simp)) fun _ _ _ _ => ?_)
        exact ⟨afterFlag_lab _, trivial, fun hp => by cases hp⟩
      | enqueue => simp [client] at ha
      | destroy => simp [client] at ha
    | caller i =>
      cases op with
      | run => simp [client] at ha
      | enqueue =>
        refine wp_mono (wp_enqueue_throws (by simp)) ?_
        rintro _ _ - ⟨task, rfl⟩
        exact ⟨trivial, fun hp => by cases hp⟩
      | destroy => simp [client] at ha
    | destructor => cases op <;> simp [client, hr rfl] at ha

/-- The flag is set, nobody is in `enqueue`, and the destructor is past `notify_all`. -/
theorem silent_of_mute {n : ℕ} {x : PoolConfig} (hflag : x.mem.shuttingDown = true)
    (hbegun : (x.held .destructor).begun = true)
    (hmute : ∀ p op c, x.pc p = some (op, c) → Mute c) : Silent n x := by
  have hholds : afterFlag.Holds (client n) x fun _ => () := by
    refine ⟨hflag, fun p => ⟨(), ?_⟩, fun p _ => ?_, fun p op c hc => ?_⟩
    · rintro rfl
      exact hbegun
    · rintro rfl
      exact hbegun
    · refine wp_mono ((hmute p op c hc).wp ?_) fun r _ _ _ => ⟨trivial, ?_⟩
      · rintro rfl
        exact hbegun
      · rintro rfl
        cases r <;> exact hbegun
  intro y hy p
  obtain ⟨γ, hγ⟩ := (afterFlag_proved n).sound hholds hy
  exact hγ.labels (afterFlag_proved n) p

/-! ### The lost notification -/

/-- The worker tests the flag and the queue; the destructor stores the flag and notifies; the worker
    blocks. -/
theorem notification_lost :
    ∃ x, Config.Reachable (client 1) (PoolConfig.init 1) x ∧ Stranded 1 x := by
  have hcall : Config.Reachable (client 1) (PoolConfig.init 1) _ :=
    .step .init (fun _ _ => trivial) (t := .worker 0) (m := .call .run) rfl
  have htest : Steps ((client 1).code (.worker 0) .run) (PoolConfig.init 1).mem _ _ :=
    .iter (.act (c := 0) rfl (.act (c := 0) rfl (.act (c := 0) rfl
      (.iter (.act (c := 0) rfl (.act (c := 0) rfl (.refl _ _)))))))
  have hasked := hcall.steps (t := .worker 0) rfl htest
  have hcall' : Config.Reachable (client 1) (PoolConfig.init 1) _ :=
    .step hasked (fun _ _ => trivial) (t := .destructor) (m := .call .destroy) rfl
  have hnotified := hcall'.steps (t := .destructor) rfl
    (.act (c := 0) rfl (.act (c := 0) rfl (.refl _ _)))
  have hblocked := hnotified.steps (t := .worker 0) rfl (.act (c := 0) rfl (.refl _ _))
  have hworker : Mute ((client 1).code (.worker 0) .run) :=
    mute_runWorkerLoop.bind fun _ => trivial
  refine ⟨_, hblocked, rfl, ⟨0, rfl⟩, rfl, silent_of_mute rfl rfl fun p op c hc => ?_⟩
  cases p with
  | worker i =>
    cases i with
    | zero =>
      cases hc
      exact (hworker.steps htest).2.2 ()
    | succ i => cases hc
  | caller i => cases hc
  | destructor =>
    cases hc
    exact (mute_joinAll _).bind fun _ => trivial

end Pool

end UbsAtomic
