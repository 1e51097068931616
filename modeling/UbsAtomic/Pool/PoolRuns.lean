import Mathlib.Data.List.Nodup
import UbsAtomic.Pool.ThreadPool

/-! Every accepted task runs once, and when the pool shuts down without leaving a worker asleep.

        unmade ──▶ made ──▶ queued ──▶ in hand ──▶ executed
                     └────▶ threw

    A task is in one of these places at any time. Once a worker has seen the flag and then, under
    the mutex, an empty queue, the pool is closed: whoever takes the mutex later sees the flag too,
    so that nothing is pushed any more. -/

namespace UbsAtomic

open Conc Conc.Prog

namespace Pool

/-! ### Where the tasks are and where the parties stand -/

inductive Status where
  | unmade
  | made (p : Party)
  | threw
  | queued
  | inHand (p : Party)
  | executed
  deriving DecidableEq

/-- The places of a task that was pushed. -/
def Status.pushed : Status → Bool
  | .queued | .inHand _ | .executed => true
  | _ => false

/-- Where a party stands: outside, or with the mutex, and then with what it knows of the queue and
    which task it has. `asked` is the worker that has read `shuttingDown_` as false in the wait
    predicate and has not blocked yet. -/
inductive Spot where
  | out
  | locked
  | more
  | asked
  | popped (task : ℕ)
  | carries (task : ℕ)
  | made (task : ℕ)
  | entered (task : ℕ)
  | checked (task : ℕ)
  deriving DecidableEq

namespace Spot

def mutex : Spot → Bool
  | .out | .carries _ | .made _ => false
  | _ => true

/-- The task that was taken from the queue and has not run. -/
def hand : Spot → Option ℕ
  | .popped task | .carries task => some task
  | _ => none

/-- The task that has not been pushed. -/
def unpushed : Spot → Option ℕ
  | .made task | .entered task | .checked task => some task
  | _ => none

def isChecked : Spot → Bool
  | .checked _ => true
  | _ => false

end Spot

/-- `down`: has seen the flag; `done`: has seen the flag and then the queue empty. -/
structure Ghost where
  spot : Spot
  down : Bool
  done : Bool
  accepted : List ℕ
  threw : List ℕ
  deriving DecidableEq

/-- Whether the thread of a party has ended. -/
def Mem.ended (s : Mem) : Party → Bool
  | .worker i => s.left i
  | _ => false

/-- What the ghost of one party says of mutex, flag and queue. -/
structure Stands (n : ℕ) (closed : Bool) (s : Mem) (p : Party) (g : Ghost) : Prop where
  mutex : s.mtx = some p ↔ g.spot.mutex = true
  more : g.spot = .more → s.taskQueue ≠ []
  down : g.down = true → s.shuttingDown = true
  done : g.done = true → closed = true ∧ g.spot.hand = none
  checked : g.spot.isChecked = true → closed = false
  ended : s.ended p = true → g.done = true
  able : g.accepted ≠ [] → 0 < n

/-- What it says of the tasks. -/
structure Has (st : ℕ → Status) (p : Party) (g : Ghost) : Prop where
  hand : ∀ task, g.spot.hand = some task ↔ st task = .inHand p
  unpushed : ∀ task, g.spot.unpushed = some task → st task = .made p
  accepted : ∀ task ∈ g.accepted, (st task).pushed = true
  threw : ∀ task ∈ g.threw, st task = .threw

/-- Every task is in one place. -/
structure Placed (st : ℕ → Status) (s : Mem) : Prop where
  unmade : ∀ task, s.created ≤ task → st task = .unmade
  queued : ∀ task, task ∈ s.taskQueue ↔ st task = .queued
  nodup : s.taskQueue.Nodup
  executed : ∀ task, task ∈ s.executed ↔ st task = .executed
  once : s.executed.Nodup

/-- Who is asleep. Where the destructor wakes nobody too early, nobody is after it has. -/
structure Awake (orderly : Prop) (s : Mem) (γ : Party → Ghost) : Prop where
  flag : s.notifiedAll = true → s.shuttingDown = true
  blocked : orderly → s.notifiedAll = true → ∀ i, s.blocked i ≠ some false
  asked : orderly → ∀ p, (γ p).spot = .asked → s.notifiedAll = false

/-- The workers of the pool. -/
def Party.works (n : ℕ) : Party → Prop
  | .worker i => i < n
  | _ => False

structure Inv (orderly : Prop) (n : ℕ) (s : Mem) (γ : Party → Ghost) : Prop where
  count : s.threadCount = n
  sync : ∃ closed, (closed = true → s.shuttingDown = true ∧ s.taskQueue = []) ∧
    ∀ p, Stands n closed s p (γ p)
  tasks : ∃ st, Placed st s ∧ ∀ p, Has st p (γ p)
  hands : ∀ p, (γ p).spot.hand ≠ none → p.works n
  awake : Awake orderly s γ

/-- The destructor wakes the workers when none of them stands between its test of the flag in the
    wait predicate and blocking. -/
def NoneAsked (ℓ : Party → Option Label) (_ : Party) (e : Label) (_ : Mem) : Prop :=
  e = .notifyAll → ∀ p, ℓ p ≠ some .testQueue ∧ ℓ p ≠ some .block

def outline (orderly : Prop) (n : ℕ) : Outline Party Mem Label Ghost where
  inv := Inv orderly n
  lab := fun e g => g.spot = .asked → e = some .testQueue ∨ e = some .block
  cond := fun ℓ p e s => orderly → NoneAsked ℓ p e s
  claim := fun _ _ _ => True

section Steps

variable {orderly : Prop} {n : ℕ} {closed closed' : Bool} {st : ℕ → Status} {s s' : Mem}
  {γ : Party → Ghost} {p q : Party} {g g' : Ghost} {task : ℕ}

/-- What holds of everybody else and of `p` in its new place holds of everybody. -/
theorem forall_moved {P : Party → Ghost → Prop} (h : ∀ q, q ≠ p → P q (γ q)) (hg : P p g) :
    ∀ q, P q (Function.update γ p g q) := by
  intro q
  by_cases hq : q = p
  · subst hq
    rwa [Function.update_self]
  · rw [Function.update_of_ne hq]
    exact h q hq

/-- Only one party has the mutex. -/
theorem Stands.alone (hp : Stands n closed s p g) (hq : Stands n closed s q g') (hm : g.spot.mutex = true)
    (hne : q ≠ p) : g'.spot.mutex = false := by
  by_contra h
  have hq' := hq.mutex.mpr (by simpa using h)
  exact hne (Option.some.inj (hq'.symm.trans (hp.mutex.mpr hm)))

/-- A party does not notice what others do with the mutex, or while they have it. -/
theorem Stands.frame (h : Stands n closed s q g) (mtx : s'.mtx = some q ↔ s.mtx = some q)
    (flag : s.shuttingDown = true → s'.shuttingDown = true) (ended : s'.ended q = s.ended q)
    (rest : s'.taskQueue = s.taskQueue ∧ closed' = closed ∨
      g.spot.mutex = false ∧ (closed = true → closed' = true)) : Stands n closed' s' q g := by
  have hmore : g.spot = .more → g.spot.mutex = true := by
    intro hm
    rw [hm]
    rfl
  have hchecked : g.spot.isChecked = true → g.spot.mutex = true := by
    cases g.spot <;> simp [Spot.isChecked, Spot.mutex]
  refine ⟨mtx.trans h.mutex, fun hm => ?_, fun hd => flag (h.down hd), fun hd => ⟨?_, (h.done hd).2⟩,
    fun hc => ?_, fun he => h.ended (ended ▸ he), h.able⟩
  · rcases rest with ⟨hq, -⟩ | ⟨hf, -⟩
    · exact hq ▸ h.more hm
    · simp [hmore hm] at hf
  · rcases rest with ⟨-, hc⟩ | ⟨-, hc⟩
    · exact hc ▸ (h.done hd).1
    · exact hc (h.done hd).1
  · rcases rest with ⟨-, hc'⟩ | ⟨hf, -⟩
    · exact hc' ▸ h.checked hc
    · simp [hchecked hc] at hf

/-- A task that is not the party's own changes its place. -/
theorem Has.frame {v : Status} (h : Has st q g) (hand : st task ≠ .inHand q) (hand' : v ≠ .inHand q)
    (made : st task ≠ .made q) (pushed : (st task).pushed = true → v.pushed = true)
    (threw : st task ≠ .threw) : Has (Function.update st task v) q g := by
  refine ⟨fun i => ?_, fun i hi => ?_, fun i hi => ?_, fun i hi => ?_⟩ <;> by_cases hit : i = task
  · subst hit
    rw [Function.update_self, h.hand]
    exact ⟨fun h' => absurd h' hand, fun h' => absurd h' hand'⟩
  · rw [Function.update_of_ne hit, h.hand]
  · subst hit
    exact absurd (h.unpushed i hi) made
  · rw [Function.update_of_ne hit, h.unpushed i hi]
  · subst hit
    rw [Function.update_self]
    exact pushed (h.accepted i hi)
  · rw [Function.update_of_ne hit, h.accepted i hi]
  · subst hit
    exact absurd (h.threw i hi) threw
  · rw [Function.update_of_ne hit, h.threw i hi]

/-! ### Parties that move and leave the tasks alone -/

/-- The ghosts agree on the tasks. -/
def SameTasks (g g' : Ghost) : Prop :=
  g'.spot.hand = g.spot.hand ∧ g'.spot.unpushed = g.spot.unpushed ∧ g'.accepted = g.accepted ∧
    g'.threw = g.threw

theorem Has.same (h : Has st p g) (hs : SameTasks g g') : Has st p g' := by
  obtain ⟨hh, hu, ha, ht⟩ := hs
  exact ⟨fun i => hh ▸ h.hand i, fun i => hu ▸ h.unpushed i, ha ▸ h.accepted, ht ▸ h.threw⟩

/-- What everybody else needs of a step that leaves the tasks alone. -/
structure Still (s s' : Mem) (p : Party) : Prop where
  count : s'.threadCount = s.threadCount
  queue : s'.taskQueue = s.taskQueue
  executed : s'.executed = s.executed
  created : s'.created = s.created
  flag : s.shuttingDown = true → s'.shuttingDown = true
  mtx : ∀ q, q ≠ p → (s'.mtx = some q ↔ s.mtx = some q)
  ended : ∀ q, q ≠ p → s'.ended q = s.ended q

theorem Still.refl (s : Mem) (p : Party) : Still s s p :=
  ⟨rfl, rfl, rfl, rfl, id, fun _ _ => Iff.rfl, fun _ _ => rfl⟩

theorem Inv.still (hi : Inv orderly n s γ) (hg : γ p = g) (h : Still s s' p) (hs : SameTasks g g')
    (own : ∀ closed, (closed = true → s.shuttingDown = true ∧ s.taskQueue = []) →
      Stands n closed s p g → Stands n closed s' p g')
    (awake : Awake orderly s γ → Awake orderly s' (Function.update γ p g')) :
    Inv orderly n s' (Function.update γ p g') := by
  subst hg
  obtain ⟨closed, hclosed, hst⟩ := hi.sync
  obtain ⟨st, hplaced, hhas⟩ := hi.tasks
  refine ⟨h.count.trans hi.count, ⟨closed, fun hc => ?_, forall_moved (fun q hq => ?_) ?_⟩,
    ⟨st, ?_, forall_moved (fun q _ => hhas q) ((hhas p).same hs)⟩,
    forall_moved (P := fun q g => g.spot.hand ≠ none → q.works n) (fun q _ => hi.hands q)
      (hs.1 ▸ hi.hands p), awake hi.awake⟩
  · rw [h.queue]
    exact ⟨h.flag (hclosed hc).1, (hclosed hc).2⟩
  · exact (hst q).frame (h.mtx q hq) h.flag (h.ended q hq) (.inl ⟨h.queue, rfl⟩)
  · exact own closed hclosed (hst p)
  · exact ⟨h.created ▸ hplaced.unmade, h.queue ▸ hplaced.queued, h.queue ▸ hplaced.nodup,
      h.executed ▸ hplaced.executed, h.executed ▸ hplaced.once⟩

/-- Nobody but `p` moves, and `p` does not get between the test of the flag and blocking. -/
theorem Awake.still (h : Awake orderly s γ) (hf : s.shuttingDown = true → s'.shuttingDown = true)
    (hn : s'.notifiedAll = s.notifiedAll)
    (hb : orderly → s.notifiedAll = true → ∀ i, s'.blocked i ≠ some false)
    (ha : g'.spot = .asked → s.notifiedAll = false) : Awake orderly s' (Function.update γ p g') := by
  refine ⟨fun h' => hf (h.flag (hn ▸ h')), fun ho h' => hb ho (hn ▸ h'), fun ho => ?_⟩
  rw [hn]
  exact forall_moved (P := fun _ g => g.spot = .asked → s.notifiedAll = false)
    (fun q _ => h.asked ho q) ha

/-- A party learns something and moves; the memory stays. -/
theorem Inv.move (hi : Inv orderly n s γ) (hg : γ p = g) (hs : SameTasks g g')
    (mutex : g'.spot.mutex = g.spot.mutex) (done : g'.done = g.done)
    (more : g'.spot = .more → s.taskQueue ≠ []) (down : g'.down = true → s.shuttingDown = true)
    (flag : g'.spot = .asked ∨ g'.spot.isChecked = true → s.shuttingDown = false) :
    Inv orderly n s (Function.update γ p g') := by
  refine hi.still hg (.refl s p) hs (fun closed hclosed h => ?_) fun h => ?_
  · refine ⟨mutex ▸ h.mutex, more, down, fun hd => hs.1 ▸ h.done (done ▸ hd), fun hc => ?_,
      fun he => done ▸ h.ended he, hs.2.2.1 ▸ h.able⟩
    cases hcl : closed with
    | false => rfl
    | true =>
      have hf := (hclosed hcl).1
      rw [flag (.inr hc)] at hf
      cases hf
  · refine h.still id rfl h.blocked fun ha => ?_
    by_contra hn
    have hf := h.flag (by simpa using hn)
    rw [flag (.inl ha)] at hf
    cases hf

/-- The mutex is taken. -/
theorem Inv.lock (hi : Inv orderly n s γ) (hg : γ p = g) (hm : s.mtx = none) {spot : Spot}
    (hs : SameTasks g { g with spot := spot }) (mutex : spot.mutex = true) (more : spot ≠ .more)
    (asked : spot ≠ .asked) (checked : spot.isChecked = false) :
    Inv orderly n { s with mtx := some p } (Function.update γ p { g with spot := spot }) := by
  refine hi.still hg ⟨rfl, rfl, rfl, rfl, id, fun q hq => ?_, fun q _ => by cases q <;> rfl⟩ hs
    (fun closed _ h => ?_) fun h => h.still id rfl h.blocked fun ha => absurd ha asked
  · simp [hm, Ne.symm hq]
  · exact ⟨by simp [mutex], fun h => absurd h more, h.down, fun hd => hs.1 ▸ h.done hd,
      fun hc => by simp [checked] at hc, fun he => h.ended (by cases p <;> exact he), h.able⟩

/-- The mutex is given back, by `unlock` or by blocking. -/
theorem Inv.unlock (hi : Inv orderly n s γ) (hg : γ p = g) (hm : g.spot.mutex = true) {spot : Spot}
    (hs : SameTasks g { g with spot := spot }) (mutex : spot.mutex = false) {b : ℕ → Option Bool}
    (hb : orderly → s.notifiedAll = true → ∀ i, b i ≠ some false) :
    Inv orderly n { s with mtx := none, blocked := b } (Function.update γ p { g with spot := spot }) := by
  have hmtx : s.mtx = some p := by
    obtain ⟨closed, -, hst⟩ := hi.sync
    exact (hst p).mutex.mpr (hg ▸ hm)
  have hmore : spot ≠ .more := by
    rintro rfl
    cases mutex
  have hasked : spot ≠ .asked := by
    rintro rfl
    cases mutex
  have hchecked : spot.isChecked = false := by
    cases spot <;> first | rfl | cases mutex
  refine hi.still hg ⟨rfl, rfl, rfl, rfl, id, fun q hq => ?_, fun q _ => by cases q <;> rfl⟩ hs
    (fun closed _ h => ?_) fun h => h.still id rfl hb fun ha => absurd ha hasked
  · simp [hmtx, Ne.symm hq]
  · exact ⟨by simp [mutex], fun h => absurd h hmore, h.down, fun hd => hs.1 ▸ h.done hd,
      fun hc => by simp [hchecked] at hc, fun he => h.ended (by cases p <;> exact he), h.able⟩

/-- The party with the mutex, which knows the flag, finds the queue empty: the pool is closed. -/
theorem Inv.close (hi : Inv orderly n s γ) (hg : γ p = g) (hm : g.spot = .locked)
    (hdown : g.down = true) (hq : s.taskQueue = []) :
    Inv orderly n s (Function.update γ p { g with done := true }) := by
  subst hg
  obtain ⟨closed, hclosed, hst⟩ := hi.sync
  obtain ⟨st, hplaced, hhas⟩ := hi.tasks
  have hmutex : (γ p).spot.mutex = true := by
    rw [hm]
    rfl
  refine ⟨hi.count, ⟨true, fun _ => ⟨(hst p).down hdown, hq⟩, forall_moved (fun q hne => ?_) ?_⟩,
    ⟨st, hplaced, forall_moved (fun q _ => hhas q) ((hhas p).same ⟨rfl, rfl, rfl, rfl⟩)⟩,
    forall_moved (P := fun q g => g.spot.hand ≠ none → q.works n) (fun q _ => hi.hands q)
      (hi.hands p), hi.awake.still id rfl hi.awake.blocked fun ha => ?_⟩
  · exact (hst q).frame Iff.rfl id rfl (.inr ⟨(hst p).alone (hst q) hmutex hne, fun _ => rfl⟩)
  · refine ⟨(hst p).mutex, fun h => ?_, (hst p).down, fun _ => ⟨rfl, ?_⟩, fun hc => ?_, fun _ => rfl,
      (hst p).able⟩
    · rw [hm] at h
      cases h
    · rw [hm]
      rfl
    · rw [hm] at hc
      cases hc
  · rw [hm] at ha
    cases ha

/-! ### Tasks that change their place -/

/-- A task of `p`, of nobody or of the queue changes its place, and `p` moves with it. -/
theorem Inv.shift (hi : Inv orderly n s γ) (hg : γ p = g) (h : s'.threadCount = s.threadCount)
    (task : ℕ) (u v : Status) (hu : u ≠ .threw) (hup : u.pushed = true → v.pushed = true)
    (hothers : ∀ q, q ≠ p → u ≠ .inHand q ∧ u ≠ .made q ∧ v ≠ .inHand q)
    (hfrom : ∀ st, Placed st s → Has st p g → st task = u)
    (hplaced' : ∀ st, Placed st s → st task = u → Placed (Function.update st task v) s')
    (hhas' : ∀ st, Has st p g → st task = u → Has (Function.update st task v) p g')
    (sync : ∃ closed, (closed = true → s'.shuttingDown = true ∧ s'.taskQueue = []) ∧
      ∀ q, Stands n closed s' q (Function.update γ p g' q))
    (hands : g'.spot.hand ≠ none → p.works n)
    (awake : Awake orderly s' (Function.update γ p g')) :
    Inv orderly n s' (Function.update γ p g') := by
  subst hg
  obtain ⟨st, hplaced, hhas⟩ := hi.tasks
  have hst := hfrom st hplaced (hhas p)
  refine ⟨h.trans hi.count, sync, ⟨Function.update st task v, hplaced' st hplaced hst,
    forall_moved (fun q hq => ?_) (hhas' st (hhas p) hst)⟩,
    forall_moved (P := fun q g => g.spot.hand ≠ none → q.works n) (fun q _ => hi.hands q) hands, awake⟩
  obtain ⟨h₁, h₂, h₃⟩ := hothers q hq
  refine (hhas q).frame ?_ h₃ ?_ ?_ ?_ <;> rw [hst]
  · exact h₁
  · exact h₂
  · exact hup
  · exact hu

theorem Has.accepted_update {v : Status} (h : Has st p g)
    (hp : (st task).pushed = true → v.pushed = true) :
    ∀ i ∈ g.accepted, (Function.update st task v i).pushed = true := by
  intro i hi
  by_cases hit : i = task
  · subst hit
    rw [Function.update_self]
    exact hp (h.accepted i hi)
  · rw [Function.update_of_ne hit]
    exact h.accepted i hi

theorem Has.threw_update {v : Status} (h : Has st p g) (ht : st task ≠ .threw) :
    ∀ i ∈ g.threw, Function.update st task v i = .threw := by
  intro i hi
  have hit : i ≠ task := by
    rintro rfl
    exact ht (h.threw i hi)
  rw [Function.update_of_ne hit]
  exact h.threw i hi

/-- A party whose only task is the one that moves. -/
theorem Has.hand_update {v : Status} {spot : Spot} (h : Has st p g)
    (ho : ∀ i, g.spot.hand = some i → i = task)
    (hv : ∀ i, spot.hand = some i ↔ i = task ∧ v = .inHand p) :
    ∀ i, spot.hand = some i ↔ Function.update st task v i = .inHand p := by
  intro i
  rw [hv]
  by_cases hit : i = task
  · subst hit
    simp
  · rw [Function.update_of_ne hit, ← h.hand]
    exact ⟨fun h' => absurd h'.1 hit, fun h' => absurd (ho i h') hit⟩

/-- A status other than `unmade` belongs to a task that has been made. -/
theorem Placed.unmade_update {v : Status} (h : Placed st s) (hu : st task ≠ .unmade) :
    ∀ i, s.created ≤ i → Function.update st task v i = .unmade := by
  intro i hi
  have hit : i ≠ task := by
    rintro rfl
    exact hu (h.unmade i hi)
  rw [Function.update_of_ne hit]
  exact h.unmade i hi

/-- Membership in a list of the tasks with status `w`, after one task has changed its place. -/
theorem mem_update {l l' : List ℕ} {v w : Status} (h : ∀ i, i ∈ l ↔ st i = w)
    (hne : ∀ i, i ≠ task → (i ∈ l' ↔ i ∈ l)) (ht : task ∈ l' ↔ v = w) :
    ∀ i, i ∈ l' ↔ Function.update st task v i = w := by
  intro i
  by_cases hit : i = task
  · subst hit
    rw [Function.update_self]
    exact ht
  · rw [Function.update_of_ne hit, hne i hit, h]

/-- `front()` and `pop()`. -/
theorem Inv.pop (hi : Inv orderly n s γ) (hw : p.works n) (hg : γ p = g) (hm : g.spot = .more)
    {rest : List ℕ}
    (hq : s.taskQueue = task :: rest) :
    Inv orderly n { s with taskQueue := rest }
      (Function.update γ p { g with spot := .popped task }) := by
  have hmutex : g.spot.mutex = true := by
    rw [hm]
    rfl
  have hnone : ∀ i, g.spot.hand = some i → i = task := by
    rw [hm]
    intro i hi
    cases hi
  refine hi.shift hg rfl task .queued (.inHand p) (by decide) (fun _ => rfl)
    (fun q hne => ⟨by simp, by simp, by simpa using Ne.symm hne⟩)
    (fun st h _ => (h.queued task).mp (by simp [hq])) (fun st h hst => ?_) (fun st h hst => ?_) ?_
    (fun _ => hw) (hi.awake.still id rfl hi.awake.blocked (by simp))
  · have hnd : (task :: rest).Nodup := hq ▸ h.nodup
    refine ⟨h.unmade_update (by simp [hst]), mem_update h.queued (fun i hit => ?_) ?_,
      (List.nodup_cons.mp hnd).2, mem_update h.executed (fun _ _ => Iff.rfl) ?_, h.once⟩
    · rw [hq, List.mem_cons]
      simp [hit]
    · simp [(List.nodup_cons.mp hnd).1]
    · simp [h.executed, hst]
  · exact ⟨h.hand_update hnone (by simp [Spot.hand, eq_comm]), fun i hi => (by cases hi),
      h.accepted_update fun _ => rfl, h.threw_update (by simp [hst])⟩
  · obtain ⟨closed, hclosed, hst⟩ := hi.sync
    have hfalse : closed ≠ true := fun hc => by simpa [hq] using (hclosed hc).2
    refine ⟨closed, fun hc => absurd hc hfalse, forall_moved (fun q hne => ?_) ?_⟩
    · exact (hst q).frame Iff.rfl id (by cases q <;> rfl)
        (.inr ⟨(hst p).alone (hst q) (hg ▸ hmutex) hne, id⟩)
    · have h := hg ▸ hst p
      refine ⟨?_, fun h => (by cases h), h.down, fun hd => absurd (h.done hd).1 hfalse,
        fun h => (by cases h),
        fun he => h.ended (by cases p <;> exact he), h.able⟩
      rw [h.mutex, hmutex]
      simp [Spot.mutex]

/-- `task()`. -/
theorem Inv.run (hi : Inv orderly n s γ) (hg : γ p = g) (hm : g.spot = .carries task) :
    Inv orderly n { s with executed := task :: s.executed }
      (Function.update γ p { g with spot := .out }) := by
  have hhand : g.spot.hand = some task := by
    rw [hm]
    rfl
  refine hi.shift hg rfl task (.inHand p) .executed (by simp) (fun _ => rfl)
    (fun q hne => ⟨by simpa using Ne.symm hne, by simp, by simp⟩)
    (fun st _ h => (h.hand task).mp hhand) (fun st h hst => ?_) (fun st h hst => ?_) ?_
    (by simp [Spot.hand]) (hi.awake.still id rfl hi.awake.blocked (by simp))
  · refine ⟨h.unmade_update (by simp [hst]), mem_update h.queued (fun _ _ => Iff.rfl) ?_, h.nodup,
      mem_update h.executed (fun i hit => ?_) (by simp), ?_⟩
    · simp [h.queued, hst]
    · simp [hit]
    · exact List.nodup_cons.mpr ⟨by simp [h.executed, hst], h.once⟩
  · refine ⟨h.hand_update (fun i hi => ?_) (by simp [Spot.hand]), fun i hi => (by cases hi),
      h.accepted_update fun _ => rfl, h.threw_update (by simp [hst])⟩
    exact Option.some.inj (hi.symm.trans hhand)
  · obtain ⟨closed, hclosed, hst⟩ := hi.sync
    refine ⟨closed, hclosed, forall_moved (fun q _ => ?_) ?_⟩
    · exact (hst q).frame Iff.rfl id (by cases q <;> rfl) (.inl ⟨rfl, rfl⟩)
    · have h := hg ▸ hst p
      refine ⟨?_, fun h => (by cases h), h.down, fun hd => ?_, fun h => (by cases h),
        fun he => h.ended (by cases p <;> exact he), h.able⟩
      · rw [h.mutex, hm]
        simp [Spot.mutex]
      · exact absurd (h.done hd).2 (by simp [hhand])

/-- `make_shared`. -/
theorem Inv.create (hi : Inv orderly n s γ) (hg : γ p = g) (hm : g.spot = .out) :
    Inv orderly n { s with created := s.created + 1 }
      (Function.update γ p { g with spot := .made s.created }) := by
  refine hi.shift hg rfl s.created .unmade (.made p) (by simp) (by simp [Status.pushed])
    (fun q hne => ⟨by simp, by simp, by simp⟩)
    (fun st h _ => h.unmade _ (Nat.le_refl _)) (fun st h hst => ?_) (fun st h hst => ?_) ?_
    (by simp [Spot.hand]) (hi.awake.still id rfl hi.awake.blocked (by simp))
  · refine ⟨fun i hi => ?_, mem_update h.queued (fun _ _ => Iff.rfl) ?_, h.nodup,
      mem_update h.executed (fun _ _ => Iff.rfl) ?_, h.once⟩
    · have hlt : s.created < i := hi
      rw [Function.update_of_ne (by omega)]
      exact h.unmade i (Nat.le_of_lt hlt)
    · simp [h.queued, hst]
    · simp [h.executed, hst]
  · refine ⟨h.hand_update (fun i hi => ?_) (by simp [Spot.hand]), fun i hi => ?_,
      h.accepted_update (by simp [hst, Status.pushed]), h.threw_update (by simp [hst])⟩
    · rw [hm] at hi
      cases hi
    · cases hi
      rw [Function.update_self]
  · obtain ⟨closed, hclosed, hst⟩ := hi.sync
    refine ⟨closed, hclosed, forall_moved (fun q _ => ?_) ?_⟩
    · exact (hst q).frame Iff.rfl id (by cases q <;> rfl) (.inl ⟨rfl, rfl⟩)
    · have h := hg ▸ hst p
      refine ⟨?_, fun h => (by cases h), h.down, fun hd => ⟨(h.done hd).1, rfl⟩, fun h => (by cases h),
        fun he => h.ended (by cases p <;> exact he), h.able⟩
      rw [h.mutex, hm]
      simp [Spot.mutex]

/-- The task is not pushed: `enqueue` throws. -/
theorem Inv.throw (hi : Inv orderly n s γ) (hg : γ p = g)
    (hm : g.spot = .entered task ∨ g.spot = .checked task) :
    Inv orderly n s (Function.update γ p { g with spot := .locked, threw := task :: g.threw }) := by
  have hun : g.spot.unpushed = some task := by
    rcases hm with hm | hm <;> rw [hm] <;> rfl
  have hhand : g.spot.hand = none := by
    rcases hm with hm | hm <;> rw [hm] <;> rfl
  have hmutex : g.spot.mutex = true := by
    rcases hm with hm | hm <;> rw [hm] <;> rfl
  refine hi.shift hg rfl task (.made p) .threw (by simp) (by simp [Status.pushed])
    (fun q hne => ⟨by simp, by simpa using Ne.symm hne, by simp⟩)
    (fun st _ h => h.unpushed task hun) (fun st h hst => ?_) (fun st h hst => ?_) ?_
    (by simp [Spot.hand]) (hi.awake.still id rfl hi.awake.blocked (by simp))
  · refine ⟨h.unmade_update (by simp [hst]), mem_update h.queued (fun _ _ => Iff.rfl) ?_, h.nodup,
      mem_update h.executed (fun _ _ => Iff.rfl) ?_, h.once⟩
    · simp [h.queued, hst]
    · simp [h.executed, hst]
  · refine ⟨h.hand_update (fun i hi => ?_) (by simp [Spot.hand]), fun i hi => (by cases hi),
      h.accepted_update (by simp [hst, Status.pushed]), fun i hi => ?_⟩
    · rw [hhand] at hi
      cases hi
    · rcases List.mem_cons.mp hi with rfl | hi
      · rw [Function.update_self]
      · exact h.threw_update (by simp [hst]) i hi
  · obtain ⟨closed, hclosed, hst⟩ := hi.sync
    refine ⟨closed, hclosed, forall_moved (fun q _ => hst q) ?_⟩
    have h := hg ▸ hst p
    refine ⟨?_, fun h => (by cases h), h.down, fun hd => ⟨(h.done hd).1, rfl⟩, fun h => (by cases h),
      h.ended, h.able⟩
    rw [h.mutex, hmutex]
    simp [Spot.mutex]

/-- The task is pushed. -/
theorem Inv.push (hi : Inv orderly n s γ) (hg : γ p = g) (hm : g.spot = .checked task) (hn : 0 < n) :
    Inv orderly n { s with taskQueue := s.taskQueue ++ [task] }
      (Function.update γ p { g with spot := .locked, accepted := task :: g.accepted }) := by
  have hun : g.spot.unpushed = some task := by
    rw [hm]
    rfl
  have hmutex : g.spot.mutex = true := by
    rw [hm]
    rfl
  refine hi.shift hg rfl task (.made p) .queued (by simp) (fun _ => rfl)
    (fun q hne => ⟨by simp, by simpa using Ne.symm hne, by simp⟩)
    (fun st _ h => h.unpushed task hun) (fun st h hst => ?_) (fun st h hst => ?_) ?_
    (by simp [Spot.hand]) (hi.awake.still id rfl hi.awake.blocked (by simp))
  · refine ⟨h.unmade_update (by simp [hst]), mem_update h.queued (fun i hit => ?_) (by simp), ?_,
      mem_update h.executed (fun _ _ => Iff.rfl) ?_, h.once⟩
    · simp [hit]
    · refine List.nodup_append.mpr ⟨h.nodup, List.nodup_singleton _, ?_⟩
      rintro a ha b hb rfl
      rw [List.mem_singleton.mp hb, h.queued, hst] at ha
      cases ha
    · simp [h.executed, hst]
  · refine ⟨h.hand_update (fun i hi => ?_) (by simp [Spot.hand]), fun i hi => (by cases hi),
      fun i hi => ?_, h.threw_update (by simp [hst])⟩
    · rw [hm] at hi
      cases hi
    · rcases List.mem_cons.mp hi with rfl | hi
      · rw [Function.update_self]
        rfl
      · exact h.accepted_update (fun _ => rfl) i hi
  · obtain ⟨closed, hclosed, hst⟩ := hi.sync
    have h := hg ▸ hst p
    -- the pool cannot be closed: this party has seen the flag down and still has the mutex
    have hfalse : closed = false := h.checked (by rw [hm]; rfl)
    refine ⟨closed, fun hc => by simp [hfalse] at hc, forall_moved (fun q hne => ?_) ?_⟩
    · exact (hst q).frame Iff.rfl id (by cases q <;> rfl)
        (.inr ⟨(hst p).alone (hst q) (hg ▸ hmutex) hne, id⟩)
    · refine ⟨?_, fun h => (by cases h), h.down, fun hd => ⟨(h.done hd).1, rfl⟩, fun h => (by cases h),
        fun he => h.ended (by cases p <;> exact he), fun _ => hn⟩
      rw [h.mutex, hmutex]
      simp [Spot.mutex]

/-! ### The flag, the notifications and the end of a worker -/

theorem Inv.shutDown (hi : Inv orderly n s γ) (hg : γ p = g) :
    Inv orderly n { s with shuttingDown := true } (Function.update γ p { g with down := true }) := by
  refine hi.still hg ⟨rfl, rfl, rfl, rfl, fun _ => rfl, fun _ _ => Iff.rfl,
    fun q _ => by cases q <;> rfl⟩ ⟨rfl, rfl, rfl, rfl⟩ (fun closed _ h => ?_)
    fun h => ⟨fun _ => rfl, h.blocked, fun ho => ?_⟩
  · exact ⟨h.mutex, h.more, fun _ => rfl, h.done, h.checked,
      fun he => h.ended (by cases p <;> exact he), h.able⟩
  · exact forall_moved (P := fun _ g => g.spot = .asked → s.notifiedAll = false)
      (fun q _ => h.asked ho q) (hg ▸ h.asked ho p)

/-- Notifications and wake-ups put nobody to sleep. -/
theorem Inv.wake (hi : Inv orderly n s γ) (hg : γ p = g) {b : ℕ → Option Bool}
    (hb : ∀ i, b i = some false → s.blocked i = some false) :
    Inv orderly n { s with blocked := b } (Function.update γ p g) := by
  refine hi.still hg ⟨rfl, rfl, rfl, rfl, id, fun _ _ => Iff.rfl, fun q _ => by cases q <;> rfl⟩
    ⟨rfl, rfl, rfl, rfl⟩ (fun closed _ h => ?_) fun h => ⟨h.flag, fun ho hn i hbi => ?_, fun ho => ?_⟩
  · exact h.frame Iff.rfl id (by cases p <;> rfl) (.inl ⟨rfl, rfl⟩)
  · exact h.blocked ho hn i (hb i hbi)
  · rw [← hg, Function.update_eq_self]
    exact h.asked ho

/-- `notify_all`, after the flag has been stored. -/
theorem Inv.wakeAll (hi : Inv orderly n s γ) (hg : γ p = g) (hd : s.shuttingDown = true)
    (ha : orderly → ∀ q, (γ q).spot ≠ .asked) :
    Inv orderly n { s with blocked := fun i => (s.blocked i).map fun _ => true, notifiedAll := true }
      (Function.update γ p g) := by
  refine hi.still hg ⟨rfl, rfl, rfl, rfl, id, fun _ _ => Iff.rfl, fun q _ => by cases q <;> rfl⟩
    ⟨rfl, rfl, rfl, rfl⟩ (fun closed _ h => ?_) fun h => ⟨fun _ => hd, fun _ _ i => ?_, fun ho q hq => ?_⟩
  · exact h.frame Iff.rfl id (by cases p <;> rfl) (.inl ⟨rfl, rfl⟩)
  · cases s.blocked i <;> simp
  · rw [← hg, Function.update_eq_self] at hq
    exact absurd hq (ha ho q)

theorem Inv.leave {i : ℕ} (hi : Inv orderly n s γ) (hg : γ (.worker i) = g) (hd : g.done = true) :
    Inv orderly n { s with left := Function.update s.left i true } (Function.update γ (.worker i) g) := by
  refine hi.still hg ⟨rfl, rfl, rfl, rfl, id, fun _ _ => Iff.rfl, fun q hq => ?_⟩
    ⟨rfl, rfl, rfl, rfl⟩ (fun closed _ h => ?_) fun h => ⟨h.flag, h.blocked, fun ho => ?_⟩
  · cases q with
    | worker j =>
      have hj : j ≠ i := fun hj => hq (hj ▸ rfl)
      simp [Mem.ended, hj]
    | caller _ => rfl
    | destructor => rfl
  · exact ⟨h.mutex, h.more, h.down, h.done, h.checked, fun _ => hd, h.able⟩
  · rw [← hg, Function.update_eq_self]
    exact h.asked ho

/-! ### The calls -/

/-- What a party remembers of its calls. -/
def Knows (h : Past) (g : Ghost) : Prop :=
  (∀ task ∈ h.returned, task ∈ g.accepted) ∧ ∀ task ∈ h.threw, task ∈ g.threw

abbrev Does (orderly : Prop) (n : ℕ) (p : Party) (h : Past) {α : Type} (c : Call α)
    (Q : α → Ghost → Prop) (g : Ghost) : Prop :=
  wp (outline orderly n) p (fun _ => Knows h) c Q g

variable {h : Past} {i : ℕ}

theorem lab_of_ne {e : Option Label} (hg : g.spot ≠ .asked) : (outline orderly n).lab e g :=
  fun ha => absurd ha hg

theorem wp_lockMtx (spot : Spot) (hk : Knows h g) (hne : g.spot ≠ .asked)
    (hs : SameTasks g { g with spot := spot }) (mutex : spot.mutex = true) (more : spot ≠ .more)
    (asked : spot ≠ .asked) (checked : spot.isChecked = false) :
    Does orderly n p h (lockMtx p) (fun _ g' => g' = { g with spot := spot }) g := by
  refine ⟨lab_of_ne hne, fun s γ hpre => ⟨trivial, fun c s' b hf => ?_⟩⟩
  dsimp only at hf
  split at hf
  · rename_i hm
    cases hf
    exact ⟨{ g with spot := spot }, hk, hpre.inv.lock hpre.own hm hs mutex more asked checked,
      lab_of_ne asked, rfl⟩
  · cases hf

theorem wp_unlockMtx (spot : Spot) (hk : Knows h g) (hne : g.spot ≠ .asked) (hm : g.spot.mutex = true)
    (hs : SameTasks g { g with spot := spot }) (mutex : spot.mutex = false) :
    Does orderly n p h unlockMtx (fun _ g' => g' = { g with spot := spot }) g := by
  have hasked : spot ≠ .asked := by
    rintro rfl
    cases mutex
  refine ⟨lab_of_ne hne, fun s γ hpre => ⟨trivial, fun c s' b hf => ?_⟩⟩
  cases hf
  exact ⟨{ g with spot := spot }, hk, hpre.inv.unlock hpre.own hm hs mutex hpre.inv.awake.blocked,
    lab_of_ne hasked, rfl⟩

/-- A worker looks at the queue with the mutex in its hands. -/
theorem wp_loadQueue (hk : Knows h g) (hg : g.spot = .locked ∨ g.spot = .more) :
    Does orderly n p h (load taskQueue)
      (fun q g' => q ≠ [] ∧ g' = { g with spot := .more } ∨ q = [] ∧ g.spot = .locked ∧ g' = g) g := by
  have hne : g.spot ≠ .asked := by
    rcases hg with hg | hg <;> rw [hg] <;> simp
  refine wp_read (lab_of_ne hne) fun s γ hpre => ⟨trivial, ?_⟩
  by_cases hq : s.taskQueue = []
  · have hlocked : g.spot = .locked := by
      refine hg.resolve_right fun hm => ?_
      obtain ⟨closed, -, hst⟩ := hpre.inv.sync
      exact (hst p).more (hpre.own ▸ hm) hq
    exact ⟨g, hk, by rw [hpre.update]; exact hpre.inv, lab_of_ne hne, .inr ⟨hq, hlocked, rfl⟩⟩
  · refine ⟨{ g with spot := .more }, hk, ?_, lab_of_ne (by simp), .inl ⟨hq, rfl⟩⟩
    refine hpre.inv.move hpre.own ?_ ?_ rfl (fun _ => hq) ?_ (by simp [Spot.isChecked])
    · rcases hg with hg | hg <;> simp [SameTasks, hg, Spot.hand, Spot.unpushed]
    · rcases hg with hg | hg <;> simp [hg, Spot.mutex]
    · obtain ⟨closed, -, hst⟩ := hpre.inv.sync
      exact hpre.own ▸ (hst p).down

theorem wp_popTask (hw : p.works n) (hk : Knows h g) (hg : g.spot = .more) :
    Does orderly n p h popTask (fun task g' => g' = { g with spot := .popped task }) g := by
  refine wp_rmw (lab_of_ne (by simp [hg])) fun s γ hpre => ⟨trivial, ?_⟩
  obtain ⟨closed, -, hst⟩ := hpre.inv.sync
  obtain ⟨task, rest, hq⟩ := List.exists_cons_of_ne_nil ((hst p).more (hpre.own ▸ hg))
  have hget : taskQueue.get s = task :: rest := hq
  rw [hget]
  exact ⟨{ g with spot := .popped task }, hk, hpre.inv.pop hw hpre.own hg hq, lab_of_ne (by simp), rfl⟩

theorem wp_runTask {task : ℕ} (hk : Knows h g) (hg : g.spot = .carries task) :
    Does orderly n p h (runTask task) (fun _ g' => g' = { g with spot := .out }) g := by
  refine ⟨lab_of_ne (by simp [hg]), fun s γ hpre => ⟨trivial, fun c s' b hf => ?_⟩⟩
  cases hf
  exact ⟨{ g with spot := .out }, hk, hpre.inv.run hpre.own hg, lab_of_ne (by simp), rfl⟩

/-- Whoever reads the flag as true remembers it. -/
theorem wp_loadFlag (hk : Knows h g) (hg : g.spot = .out) :
    Does orderly n p h (load shuttingDown)
      (fun b g' => b = true ∧ g' = { g with down := true } ∨ b = false ∧ g' = g) g := by
  have hne : g.spot ≠ .asked := by simp [hg]
  refine wp_read (lab_of_ne hne) fun s γ hpre => ⟨trivial, ?_⟩
  by_cases hf : s.shuttingDown = true
  · refine ⟨{ g with down := true }, hk, ?_, lab_of_ne hne, .inl ⟨hf, rfl⟩⟩
    exact hpre.inv.move hpre.own ⟨rfl, rfl, rfl, rfl⟩ rfl rfl (by simp [hg]) (fun _ => hf)
      (by simp [hg, Spot.isChecked])
  · exact ⟨g, hk, by rw [hpre.update]; exact hpre.inv, lab_of_ne hne, .inr ⟨eq_false_of_ne_true hf, rfl⟩⟩

/-- What a round of `wait` leaves: the mutex, and a reason to go on. -/
def Waited (h : Past) (r : Unit ⊕ Unit) (g : Ghost) : Prop :=
  Knows h g ∧ Sum.elim (fun _ => g.spot = .locked)
    (fun _ => g.spot = .locked ∧ g.down = true ∨ g.spot = .more) r

/-- Asleep, then awake, then with the mutex again. -/
theorem wp_sleep (hk : Knows h g) (hg : g.spot = .asked) :
    Does orderly n (.worker i) h
      ((block i).bind fun _ => (wakeUp i).bind fun _ => (lockMtx (.worker i)).bind fun _ =>
        .ret (.inl () : Unit ⊕ Unit)) (Waited h) g := by
  refine ⟨fun _ => .inr rfl, fun s γ hpre => ⟨trivial, fun c s' b hf => ?_⟩⟩
  cases hf
  refine ⟨{ g with spot := .out }, hk, ?_, ?_⟩
  · refine hpre.inv.unlock hpre.own (by rw [hg]; rfl) (by simp [SameTasks, hg, Spot.hand, Spot.unpushed])
      rfl fun ho hn => ?_
    have hfalse := hpre.inv.awake.asked ho (.worker i) (hpre.own ▸ hg)
    rw [hn] at hfalse
    cases hfalse
  refine ⟨lab_of_ne (by simp), fun s γ hpre => ⟨trivial, fun c s' b hf => ?_⟩⟩
  dsimp only at hf
  split at hf
  · cases hf
    refine ⟨{ g with spot := .out }, hk, hpre.inv.wake hpre.own fun j hj => ?_, ?_⟩
    · by_cases hji : j = i
      · subst hji
        simp at hj
      · rwa [Function.update_of_ne hji] at hj
    · dsimp only [ret_bind]
      refine wp_bind (wp_mono (wp_lockMtx (g := { g with spot := .out }) .locked hk (by simp)
        ⟨rfl, rfl, rfl, rfl⟩ rfl (by simp) (by simp) rfl) ?_)
      rintro _ _ - rfl
      exact ⟨lab_of_ne (by simp), hk, rfl⟩
  · cases hf

theorem wp_waitRound (hk : Knows h g) (hg : g.spot = .locked) :
    Does orderly n (.worker i) h (waitRound i) (Waited h) g := by
  refine ⟨lab_of_ne (by simp [hg]), fun s γ hpre => ⟨trivial, fun c s' b hf => ?_⟩⟩
  cases hf
  by_cases hd : s.shuttingDown = true
  · refine ⟨{ g with down := true }, hk, ?_, ?_⟩
    · exact hpre.inv.move hpre.own ⟨rfl, rfl, rfl, rfl⟩ rfl rfl (by simp [hg]) (fun _ => hd)
        (by simp [hg, Spot.isChecked])
    · have hget : shuttingDown.get s = true := hd
      rw [hget]
      exact ⟨lab_of_ne (by simp [hg]), hk, .inl ⟨hg, rfl⟩⟩
  have hget : shuttingDown.get s = false := eq_false_of_ne_true hd
  -- from here to blocking a notification would be lost
  refine ⟨{ g with spot := .asked }, hk, ?_, ?_⟩
  · obtain ⟨closed, -, hst⟩ := hpre.inv.sync
    exact hpre.inv.move hpre.own (by simp [SameTasks, hg, Spot.hand, Spot.unpushed])
      (by rw [hg]; rfl) rfl (by simp) (hpre.own ▸ (hst _).down) fun _ => hget
  rw [hget]
  refine ⟨fun _ => .inl rfl, fun s γ hpre => ⟨trivial, fun c s' b hf => ?_⟩⟩
  cases hf
  by_cases hq : s.taskQueue = []
  · refine ⟨{ g with spot := .asked }, hk, by rw [hpre.update]; exact hpre.inv, ?_⟩
    have hget : taskQueue.get s = [] := hq
    rw [hget]
    exact wp_sleep hk rfl
  · refine ⟨{ g with spot := .more }, hk, ?_, ?_⟩
    · obtain ⟨closed, -, hst⟩ := hpre.inv.sync
      have hdown := (hst (.worker i)).down
      rw [hpre.own] at hdown
      exact hpre.inv.move hpre.own ⟨rfl, rfl, rfl, rfl⟩ rfl rfl (fun _ => hq) hdown
        (by simp [Spot.isChecked])
    · have hget : taskQueue.get s ≠ [] := hq
      dsimp only [ret_bind]
      rw [if_pos hget]
      exact ⟨lab_of_ne (by simp), hk, .inr rfl⟩

/-- `waitForTask` comes back with the mutex, and without a task only after the flag was seen. -/
theorem wp_waitForTask (hk : Knows h g) (hg : g.spot = .locked) :
    Does orderly n (.worker i) h (waitForTask i)
      (fun b g' => Knows h g' ∧ (b = true ∧ g'.spot = .more ∨
        b = false ∧ g'.spot = .locked ∧ g'.down = true)) g := by
  refine wp_bind (wp_mono (wp_loop (Q := fun _ g' => Waited h (.inr ()) g')
    (fun _ g' => Waited h (.inl ()) g') (lab_of_ne (by simp [hg])) ⟨hk, hg⟩ ?_) ?_)
  · rintro _ g' ⟨hk', hg'⟩
    refine wp_mono (wp_waitRound hk' hg') ?_
    rintro (_ | _) g'' - hw
    · exact hw
    · exact hw
  rintro _ g' - ⟨hk', hw⟩
  refine wp_bind (wp_mono (wp_loadQueue hk' (hw.imp And.left id)) ?_)
  rintro q _ - (⟨hq, rfl⟩ | ⟨rfl, hl, rfl⟩)
  · exact ⟨lab_of_ne (by simp), hk', .inl ⟨decide_eq_true hq, rfl⟩⟩
  · refine ⟨lab_of_ne (by simp [hl]), hk', .inr ⟨by simp, hl, ?_⟩⟩
    rcases hw with ⟨-, hd⟩ | hm
    · exact hd
    · rw [hl] at hm
      cases hm

/-- A worker takes its task out of the mutex. -/
theorem wp_popUnlock {β : Type} {k : ℕ → Call β} {Q : β → Ghost → Prop} (hw : p.works n)
    (hk : Knows h g) (hg : g.spot = .more)
    (hQ : ∀ task, Does orderly n p h (k task) Q { g with spot := .carries task }) :
    Does orderly n p h (popTask.bind fun task => unlockMtx.bind fun _ => k task) Q g := by
  refine wp_bind (wp_mono (wp_popTask hw hk hg) ?_)
  rintro task _ - rfl
  refine wp_bind (wp_mono (wp_unlockMtx (.carries task) hk (by simp) rfl
    ⟨rfl, rfl, rfl, rfl⟩ rfl) ?_)
  rintro _ _ - rfl
  exact hQ task

/-- A worker comes back with a task, or has seen the flag. -/
def Dequeued (h : Past) (r : Option ℕ) (g : Ghost) : Prop :=
  Knows h g ∧ (r = none → g.spot = .out ∧ g.down = true) ∧ ∀ task, r = some task → g.spot = .carries task

theorem wp_tryDequeueTask (hi : i < n) (hk : Knows h g) (hg : g.spot = .out) :
    Does orderly n (.worker i) h (tryDequeueTask i) (Dequeued h) g := by
  refine wp_bind (wp_mono (wp_lockMtx .locked hk (by simp [hg])
    (by simp [SameTasks, hg, Spot.hand, Spot.unpushed]) rfl (by simp) (by simp) rfl) ?_)
  rintro _ _ - rfl
  refine wp_bind (wp_mono (wp_loadQueue (g := { g with spot := .locked }) hk (.inl rfl)) ?_)
  have htake : ∀ g' : Ghost, Knows h g' → g'.spot = .more →
      Does orderly n (.worker i) h (popTask.bind fun task => unlockMtx.bind fun _ => .ret (some task))
        (Dequeued h) g' := fun g' hk' hm =>
    wp_popUnlock hi hk' hm fun task => ⟨lab_of_ne (by simp), hk', by simp, by simp⟩
  rintro q _ - (⟨hq, rfl⟩ | ⟨rfl, -, rfl⟩)
  · rw [if_neg hq]
    exact htake _ hk rfl
  · rw [if_pos rfl]
    refine wp_bind (wp_mono (wp_waitForTask (g := { g with spot := .locked }) hk rfl) ?_)
    rintro _ g' - ⟨hk', ⟨rfl, hm⟩ | ⟨rfl, hl, hd⟩⟩
    · exact htake _ hk' hm
    · refine wp_bind (wp_mono (wp_unlockMtx .out hk' (by simp [hl]) (by simp [hl, Spot.mutex])
        (by simp [SameTasks, hl, Spot.hand, Spot.unpushed]) rfl) ?_)
      rintro _ _ - rfl
      exact ⟨lab_of_ne (by simp), hk', fun _ => ⟨rfl, hd⟩, by simp⟩

theorem wp_workerRound (hi : i < n) (hk : Knows h g) (hg : g.spot = .out) :
    Does orderly n (.worker i) h (workerRound i)
      (fun r g' => Knows h g' ∧ g'.spot = .out ∧ (r = .inr () → g'.down = true)) g := by
  refine wp_bind (wp_mono (wp_loadFlag hk hg) ?_)
  rintro _ _ - (⟨rfl, rfl⟩ | ⟨rfl, rfl⟩)
  · exact ⟨lab_of_ne (by simp [hg]), hk, hg, fun _ => rfl⟩
  rw [if_neg (by decide)]
  refine wp_bind (wp_mono (wp_tryDequeueTask hi hk hg) ?_)
  rintro (_ | task) g' - ⟨hk', hnone, hsome⟩
  · obtain ⟨hout, hdown⟩ := hnone rfl
    exact ⟨lab_of_ne (by simp [hout]), hk', hout, fun _ => hdown⟩
  · refine wp_bind (wp_mono (wp_runTask hk' (hsome task rfl)) ?_)
    rintro _ _ - rfl
    exact ⟨lab_of_ne (by simp), hk', rfl, by simp⟩

/-- In the drain phase: the worker has the mutex and has seen the flag, or has closed the pool. -/
def Drains (h : Past) (r : Unit ⊕ Unit) (g : Ghost) : Prop :=
  Knows h g ∧ Sum.elim (fun _ => g.spot = .locked ∧ g.down = true)
    (fun _ => g.spot = .out ∧ g.done = true) r

theorem wp_drainRound (hi : i < n) (hk : Knows h g) (hg : g.spot = .locked) (hd : g.down = true) :
    Does orderly n (.worker i) h (drainRound i) (Drains h) g := by
  refine wp_bind (wp_read (lab_of_ne (by simp [hg])) fun s γ hpre => ⟨trivial, ?_⟩)
  by_cases hq : s.taskQueue = []
  · refine ⟨{ g with done := true }, hk, hpre.inv.close hpre.own hg hd hq, lab_of_ne (by simp [hg]), ?_⟩
    have hget : taskQueue.get s = [] := hq
    beta_reduce
    rw [if_pos hget]
    refine wp_bind (wp_mono (wp_unlockMtx .out hk (by simp [hg]) (by simp [hg, Spot.mutex])
      (by simp [SameTasks, hg, Spot.hand, Spot.unpushed]) rfl) ?_)
    rintro _ _ - rfl
    exact ⟨lab_of_ne (by simp), hk, rfl, rfl⟩
  · obtain ⟨closed, -, hst⟩ := hpre.inv.sync
    refine ⟨{ g with spot := .more }, hk, ?_, lab_of_ne (by simp), ?_⟩
    · exact hpre.inv.move hpre.own (by simp [SameTasks, hg, Spot.hand, Spot.unpushed])
        (by simp [hg, Spot.mutex]) rfl (fun _ => hq) (hpre.own ▸ (hst _).down) (by simp [Spot.isChecked])
    have hget : taskQueue.get s ≠ [] := hq
    beta_reduce
    rw [if_neg hget]
    refine wp_popUnlock (p := .worker i) (g := { g with spot := .more }) hi hk rfl fun task => ?_
    refine wp_bind (wp_mono (wp_runTask (g := { g with spot := .carries task }) hk rfl) ?_)
    rintro _ _ - rfl
    refine wp_bind (wp_mono (wp_lockMtx (g := { g with spot := .out }) .locked hk (by simp)
      ⟨rfl, rfl, rfl, rfl⟩ rfl (by simp) (by simp) rfl) ?_)
    rintro _ _ - rfl
    exact ⟨lab_of_ne (by simp), hk, rfl, hd⟩

theorem wp_executeDrainPhase (hi : i < n) (hk : Knows h g) (hg : g.spot = .out) (hd : g.down = true) :
    Does orderly n (.worker i) h (executeDrainPhase i)
      (fun _ g' => Knows h g' ∧ g'.spot = .out ∧ g'.done = true) g := by
  refine wp_bind (wp_mono (wp_lockMtx .locked hk (by simp [hg])
    (by simp [SameTasks, hg, Spot.hand, Spot.unpushed]) rfl (by simp) (by simp) rfl) ?_)
  rintro _ _ - rfl
  refine wp_loop (fun _ g' => Drains h (.inl ()) g') (lab_of_ne (by simp)) ⟨hk, rfl, hd⟩ ?_
  rintro _ g' ⟨hk', hl, hd'⟩
  refine wp_mono (wp_drainRound hi hk' hl hd') ?_
  rintro (_ | _) g'' - hw
  · exact hw
  · exact hw

theorem wp_runWorkerLoop (hi : i < n) (hk : Knows h g) (hg : g.spot = .out) :
    Does orderly n (.worker i) h (runWorkerLoop i) (fun _ g' => Knows h g' ∧ g'.spot = .out) g := by
  refine wp_bind (wp_mono (wp_loop (Q := fun _ g' => Knows h g' ∧ g'.spot = .out ∧ g'.down = true)
    (fun _ g' => Knows h g' ∧ g'.spot = .out) (lab_of_ne (by simp [hg])) ⟨hk, hg⟩ ?_) ?_)
  · rintro _ g' ⟨hk', hg'⟩
    refine wp_mono (wp_workerRound hi hk' hg') ?_
    rintro (_ | _) g'' - ⟨hk'', hout, hdown⟩
    · exact ⟨hk'', hout⟩
    · exact ⟨hk'', hout, hdown rfl⟩
  rintro _ g' - ⟨hk', hout, hdown⟩
  refine wp_bind (wp_mono (wp_executeDrainPhase hi hk' hout hdown) ?_)
  rintro _ g'' - ⟨hk'', hout', hdone⟩
  refine ⟨lab_of_ne (by simp [hout']), fun s γ hpre => ⟨trivial, fun c s' b hf => ?_⟩⟩
  cases hf
  exact ⟨g'', hk'', hpre.inv.leave hpre.own hdone, lab_of_ne (by simp [hout']), hk'', hout'⟩

/-! ### Callers and destructor -/

/-- What an `enqueue` leaves behind. -/
def Answered (h : Past) (r : Outcome) (g : Ghost) : Prop :=
  Knows h g ∧ g.spot = .out ∧ (∀ task, r = .returned task → task ∈ g.accepted) ∧
    ∀ task, r = .threw task → task ∈ g.threw

theorem Knows.threw (hk : Knows h g) (task : ℕ) (spot : Spot) :
    Knows h { g with spot := spot, threw := task :: g.threw } :=
  ⟨hk.1, fun i hi => List.mem_cons_of_mem _ (hk.2 i hi)⟩

theorem Knows.accepted (hk : Knows h g) (task : ℕ) (spot : Spot) :
    Knows h { g with spot := spot, accepted := task :: g.accepted } :=
  ⟨fun i hi => List.mem_cons_of_mem _ (hk.1 i hi), hk.2⟩

theorem wp_notifyOne (hk : Knows h g) (hg : g.spot = .out) :
    Does orderly n p h notifyOne (fun _ g' => g' = g) g := by
  have hlab : ∀ e, (outline orderly n).lab e g := fun e => lab_of_ne (by simp [hg])
  refine ⟨hlab _, fun s γ hpre => ⟨trivial, fun c s' b hf => ?_⟩⟩
  dsimp only at hf
  split at hf
  · cases hf
    refine ⟨g, hk, hpre.inv.wake hpre.own fun j hj => ?_, hlab _, rfl⟩
    by_cases hjc : j = c
    · subst hjc
      simp at hj
    · rwa [Function.update_of_ne hjc] at hj
  · split at hf
    · cases hf
    · cases hf
      exact ⟨g, hk, by rw [hpre.update]; exact hpre.inv, hlab _, rfl⟩

/-- The exception leaves the mutex behind. -/
theorem wp_throws {task : ℕ} (hk : Knows h g) (hg : g.spot = .locked) (ht : task ∈ g.threw) :
    Does orderly n p h (unlockMtx.bind fun _ => .ret (.threw task)) (Answered h) g := by
  refine wp_bind (wp_mono (wp_unlockMtx .out hk (by simp [hg]) (by simp [hg, Spot.mutex])
    (by simp [SameTasks, hg, Spot.hand, Spot.unpushed]) rfl) ?_)
  rintro _ _ - rfl
  refine ⟨lab_of_ne (by simp), hk, rfl, by simp, ?_⟩
  rintro _ ⟨⟩
  exact ht

theorem wp_enqueue (hk : Knows h g) (hg : g.spot = .out) :
    Does orderly n p h (enqueue p) (Answered h) g := by
  refine wp_bind (wp_rmw (lab_of_ne (by simp [hg])) fun s γ hpre => ⟨trivial, ?_⟩)
  refine ⟨{ g with spot := .made s.created }, hk, hpre.inv.create hpre.own hg, lab_of_ne (by simp), ?_⟩
  have htask : created.get s = s.created := rfl
  rw [htask]
  generalize s.created = task
  refine wp_bind (wp_mono (wp_lockMtx (g := { g with spot := .made task }) (.entered task) hk
    (by simp) ⟨rfl, rfl, rfl, rfl⟩ rfl (by simp) (by simp) rfl) ?_)
  rintro _ _ - rfl
  refine wp_bind (wp_read (lab_of_ne (by simp)) fun s γ hpre => ⟨trivial, ?_⟩)
  by_cases hd : s.shuttingDown = true
  · have hthrow := hpre.inv.throw hpre.own (.inl rfl)
    refine ⟨_, hk.threw task .locked, hthrow, lab_of_ne (by simp), ?_⟩
    have hget : shuttingDown.get s = true := hd
    rw [hget]
    exact wp_throws (hk.threw task .locked) rfl (List.mem_cons_self ..)
  have hget : shuttingDown.get s = false := eq_false_of_ne_true hd
  obtain ⟨closed, -, hst⟩ := hpre.inv.sync
  have hdown := (hst p).down
  rw [hpre.own] at hdown
  refine ⟨{ g with spot := .checked task }, hk, ?_, lab_of_ne (by simp), ?_⟩
  · exact hpre.inv.move hpre.own ⟨rfl, rfl, rfl, rfl⟩ rfl rfl (by simp) hdown fun _ => hget
  beta_reduce
  rw [hget, if_neg (by decide)]
  refine wp_bind (wp_read (lab_of_ne (by simp)) fun s γ hpre => ⟨trivial, ?_⟩)
  have hcount : threadCount.get s = n := hpre.inv.count
  rw [hcount]
  by_cases hn : n = 0
  · have hthrow := hpre.inv.throw hpre.own (.inr rfl)
    refine ⟨_, hk.threw task .locked, hthrow, lab_of_ne (by simp), ?_⟩
    beta_reduce
    rw [if_pos hn]
    exact wp_throws (hk.threw task .locked) rfl (List.mem_cons_self ..)
  refine ⟨{ g with spot := .checked task }, hk, by rw [hpre.update]; exact hpre.inv, lab_of_ne (by simp), ?_⟩
  beta_reduce
  rw [if_neg hn]
  refine wp_bind (wp_rmw (lab_of_ne (by simp)) fun s γ hpre => ⟨trivial, ?_⟩)
  have hpush := hpre.inv.push hpre.own rfl (Nat.pos_of_ne_zero hn)
  refine ⟨_, hk.accepted task .locked, hpush, lab_of_ne (by simp), ?_⟩
  refine wp_bind (wp_mono (wp_unlockMtx .out (hk.accepted task .locked) (by simp) rfl
    ⟨rfl, rfl, rfl, rfl⟩ rfl) ?_)
  rintro _ _ - rfl
  refine wp_bind (wp_mono (wp_notifyOne (hk.accepted task .out) rfl) ?_)
  rintro _ _ - rfl
  refine ⟨lab_of_ne (by simp), hk.accepted task .out, rfl, ?_, by simp⟩
  rintro _ ⟨⟩
  exact List.mem_cons_self ..

theorem wp_joinAll (is : List ℕ) (hk : Knows h g) (hg : g.spot = .out) :
    Does orderly n p h (joinAll is) (fun _ g' => g' = g) g := by
  induction is with
  | nil => exact ⟨lab_of_ne (by simp [hg]), rfl⟩
  | cons i is ih =>
    refine ⟨lab_of_ne (by simp [hg]), fun s γ hpre => ⟨trivial, fun c s' b hf => ?_⟩⟩
    dsimp only at hf
    split at hf
    · cases hf
      exact ⟨g, hk, by rw [hpre.update]; exact hpre.inv, ih⟩
    · cases hf

theorem wp_destroy (hk : Knows h g) (hg : g.spot = .out) :
    Does orderly n p h (destroy n) (fun _ g' => g' = { g with down := true }) g := by
  have hlab : ∀ e, (outline orderly n).lab e { g with down := true } :=
    fun e => lab_of_ne (by simp [hg])
  refine wp_bind (wp_store (lab_of_ne (by simp [hg])) fun s γ hpre => ⟨trivial, ?_⟩)
  refine ⟨{ g with down := true }, hk, hpre.inv.shutDown hpre.own, hlab _, ?_⟩
  refine ⟨hlab _, fun s γ hpre => ⟨trivial, fun c s' b hf => ?_⟩⟩
  cases hf
  obtain ⟨closed, -, hst⟩ := hpre.inv.sync
  have hdown := (hst p).down
  rw [hpre.own] at hdown
  obtain ⟨ℓ, hℓ, hcond⟩ := hpre.run
  refine ⟨{ g with down := true }, hk, hpre.inv.wakeAll hpre.own (hdown rfl) fun ho q hq => ?_,
    wp_joinAll _ hk hg⟩
  -- whoever has asked stands before one of the two steps the condition excludes
  rcases hℓ q hq with hl | hl
  · exact (hcond ho rfl q).1 hl
  · exact (hcond ho rfl q).2 hl

end Steps

/-! ### Every run -/

def spec (orderly : Prop) (n : ℕ) : Spec Party Mem Label Op Outcome Past Ghost where
  toOutline := outline orderly n
  rest := fun _ h g => Knows h g ∧ g.spot = .out
  moves := fun _ h _ => Knows h
  good := fun _ _ _ _ => True

theorem Knows.start {n : ℕ} {h : Past} {g : Ghost} (hk : Knows h g) (op : Op) :
    Knows ((client n).start h op) g := by
  cases op <;> exact hk

theorem proved (orderly : Prop) (n : ℕ) : (spec orderly n).Proved (client n) where
  stay := fun _ _ _ _ hk => hk
  idle := fun _ _ _ hr => ⟨lab_of_ne (by simp [hr.2]), hr.1⟩
  start := fun _ _ op _ _ hr => hr.1.start op
  call := by
    rintro p h op g ha ⟨hk, hg⟩
    cases p with
    | worker i =>
      cases op with
      | run =>
        have hi : i < n := by
          simp [client] at ha
          exact ha.1
        refine wp_bind (wp_mono (wp_runWorkerLoop hi (hk.start .run) hg) ?_)
        rintro _ g' - ⟨hk', hg'⟩
        exact ⟨lab_of_ne (by simp [hg']), trivial, hk', hg'⟩
      | enqueue => simp [client] at ha
      | destroy => simp [client] at ha
    | caller i =>
      cases op with
      | run => simp [client] at ha
      | enqueue =>
        refine wp_mono (wp_enqueue hk hg) ?_
        rintro r g' - ⟨hk', hg', hreturned, hthrew⟩
        refine ⟨trivial, ?_, hg'⟩
        cases r with
        | done => exact hk'
        | returned task =>
          refine ⟨?_, hk'.2⟩
          exact List.forall_mem_cons.mpr ⟨hreturned task rfl, hk'.1⟩
        | threw task =>
          refine ⟨hk'.1, ?_⟩
          exact List.forall_mem_cons.mpr ⟨hthrew task rfl, hk'.2⟩
      | destroy => simp [client] at ha
    | destructor =>
      cases op with
      | run => simp [client] at ha
      | enqueue => simp [client] at ha
      | destroy =>
        refine wp_bind (wp_mono (wp_destroy (hk.start .destroy) hg) ?_)
        rintro _ _ - rfl
        exact ⟨lab_of_ne (by simp [hg]), trivial, hk, hg⟩

/-- Nobody has done anything yet. -/
def Ghost.fresh : Ghost := ⟨.out, false, false, [], []⟩

theorem inv_init (orderly : Prop) (n : ℕ) : Inv orderly n (PoolConfig.init n).mem fun _ => .fresh where
  count := rfl
  sync := ⟨false, by simp, fun p =>
    ⟨by simp [PoolConfig.init, Ghost.fresh, Spot.mutex], by simp [Ghost.fresh], by simp [Ghost.fresh],
      by simp [Ghost.fresh], by simp [Ghost.fresh, Spot.isChecked],
      by cases p <;> simp [PoolConfig.init, Mem.ended], by simp [Ghost.fresh]⟩⟩
  tasks := ⟨fun _ => .unmade,
    ⟨fun _ _ => rfl, by simp [PoolConfig.init], by simp [PoolConfig.init], by simp [PoolConfig.init],
      by simp [PoolConfig.init]⟩,
    fun _ => ⟨by simp [Ghost.fresh, Spot.hand], by simp [Ghost.fresh, Spot.unpushed],
      by simp [Ghost.fresh], by simp [Ghost.fresh]⟩⟩
  hands := by simp [Ghost.fresh, Spot.hand]
  awake := ⟨by simp [PoolConfig.init], by simp [PoolConfig.init], by simp [Ghost.fresh]⟩

theorem holds_init (orderly : Prop) (n : ℕ) :
    (spec orderly n).Holds (client n) (PoolConfig.init n) fun _ => .fresh where
  inv := inv_init orderly n
  moved := fun _ => ⟨.fresh, by simp [spec, PoolConfig.init, Knows]⟩
  idle := fun _ _ => ⟨by simp [PoolConfig.init, Knows], rfl⟩
  busy := by simp [PoolConfig.init]

section Tasks

variable {orderly : Prop} {n : ℕ} {s : Mem} {γ : Party → Ghost} {x : PoolConfig}

theorem Inv.not_executed (hi : Inv orderly n s γ) {p : Party} {task : ℕ} (ht : task ∈ (γ p).threw) :
    task ∉ s.executed := by
  obtain ⟨st, hplaced, hhas⟩ := hi.tasks
  rw [hplaced.executed, (hhas p).threw task ht]
  decide

/-- When all workers have left their loop, nothing that was pushed waits or is in somebody's hand. -/
theorem Inv.drained (hi : Inv orderly n s γ) (hleft : ∀ i < n, s.left i = true) {p : Party} {task : ℕ}
    (ht : task ∈ (γ p).accepted) : task ∈ s.executed := by
  obtain ⟨closed, hclosed, hst⟩ := hi.sync
  obtain ⟨st, hplaced, hhas⟩ := hi.tasks
  have hdone : ∀ i < n, closed = true ∧ (γ (.worker i)).spot.hand = none :=
    fun i hin => (hst _).done ((hst _).ended (hleft i hin))
  have hn : 0 < n := (hst p).able (List.ne_nil_of_mem ht)
  have hpushed := (hhas p).accepted task ht
  cases hs : st task with
  | queued =>
    have hmem := (hplaced.queued task).mpr hs
    rw [(hclosed (hdone 0 hn).1).2] at hmem
    cases hmem
  | inHand q =>
    have hhand := ((hhas q).hand task).mpr hs
    have hworks := hi.hands q (by simp [hhand])
    cases q with
    | worker i =>
      rw [(hdone i hworks).2] at hhand
      cases hhand
    | caller _ => cases hworks
    | destructor => cases hworks
  | executed => exact (hplaced.executed task).mpr hs
  | unmade => simp [hs, Status.pushed] at hpushed
  | made _ => simp [hs, Status.pushed] at hpushed
  | threw => simp [hs, Status.pushed] at hpushed

/-- In every run no task is executed twice, a task whose `enqueue` threw never, and a task whose
    `enqueue` returned once when all workers have left their loop. -/
theorem tasks_run_once (hx : Config.Reachable (client n) (PoolConfig.init n) x) :
    x.mem.executed.Nodup ∧ (∀ p, ∀ task ∈ (x.held p).threw, task ∉ x.mem.executed) ∧
      ((∀ i < n, x.mem.left i = true) →
        ∀ p, ∀ task ∈ (x.held p).returned, x.mem.executed.count task = 1) := by
  obtain ⟨γ, hγ⟩ := (proved False n).sound (holds_init False n)
    (hx.mono fun _ _ _ _ _ ho => ho.elim)
  have honce : x.mem.executed.Nodup := by
    obtain ⟨st, hplaced, -⟩ := hγ.inv.tasks
    exact hplaced.once
  have hknows : ∀ p, Knows (x.held p) (γ p) := fun p => (hγ.moved p).elim fun _ hk => hk
  refine ⟨honce, fun p task ht => ?_, fun hleft p task ht => ?_⟩
  · exact hγ.inv.not_executed ((hknows p).2 task ht)
  · exact List.count_eq_one_of_mem honce (hγ.inv.drained hleft ((hknows p).1 task ht))

/-- One task is pushed, the destructor sets the flag, and the only worker comes late. -/
theorem tasks_run_once_drained :
    ∃ x, Config.Reachable (client 1) (PoolConfig.init 1) x ∧ (∀ i < 1, x.mem.left i = true) ∧
      0 ∈ (x.held (.caller 0)).returned ∧ x.mem.executed.count 0 = 1 := by
  have hrun : ∃ x, Config.Reachable (client 1) (PoolConfig.init 1) x ∧
      (∀ i < 1, x.mem.left i = true) ∧ 0 ∈ (x.held (.caller 0)).returned :=
    Config.reachable_of_runAll
      [.call (.caller 0) .enqueue, .finish (.caller 0), .call .destructor .destroy,
        .upTo .destructor (.join 0), .call (.worker 0) .run, .finish (.worker 0)] (by decide +kernel)
  obtain ⟨x, hx, hleft, hret⟩ := hrun
  exact ⟨x, hx, hleft, hret, (tasks_run_once hx).2.2 hleft _ 0 hret⟩

end Tasks

end Pool

end UbsAtomic
