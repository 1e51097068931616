import UbsAtomic.Conc.Machine
import UbsAtomic.Lock.DistributedLock

/-! What the calls leave alone.

    The wait queues, wait contexts, messages and condition variables decide when a thread moves,
    not what the lock fields say. `SameFace` relates two memories that differ only there, and
    `SameCore` and `SameGlobal` forget more. Each function that only waits or wakes gets one lemma
    here, for every relation that `Hides` what waiting uses, and the invariants of later modules
    use these lemmas instead of the code.

        SameFace     queues, wait contexts, messages, read_count_ may change
        SameCore     hold_global_ may change too
        SameGlobal   the local words, owners and depths may change too -/

namespace UbsAtomic

open Conc Conc.Prog

/-- The shared object without its wait queue. -/
def UbRwLock.core (l : UbRwLock) : UbRwLock := { l with queue := .init .reset }

namespace LocalLock

/-- The local lock without what only waiting uses. -/
def face (l : LocalLock) : LocalLock := { l with queue := .init .reset, readCount := 0 }

/-- The local lock without what only waiting and queries use. -/
def core (l : LocalLock) : LocalLock :=
  { l with queue := .init .reset, readCount := 0, holdGlobal := false }

/-- The part of the local lock that belongs to the global protocol. -/
def global (l : LocalLock) : LocalLock :=
  { l.core with
    lockWord := .zero, lockXOwner := 0, lockSxOwner := 0, xRecursive := 0, sxRecursive := 0 }

end LocalLock

namespace Mem

def face (s : Mem) : Mem :=
  { s with
    shm := s.shm.core
    ll := fun n => (s.ll n).face
    waiters := fun _ _ => none, pending := fun _ _ => none, net := [] }

def core (s : Mem) : Mem :=
  { s with
    shm := s.shm.core
    ll := fun n => (s.ll n).core
    waiters := fun _ _ => none, pending := fun _ _ => none, net := [] }

def global (s : Mem) : Mem := { s.core with ll := fun n => (s.ll n).global }

end Mem

def SameFace (s s' : Mem) : Prop := s'.face = s.face

def SameCore (s s' : Mem) : Prop := s'.core = s.core

def SameGlobal (s s' : Mem) : Prop := s'.global = s.global

/-- The labels of the steps that only wait or wake. -/
def Label.Plain : Label → Prop
  | .step | .shared _ | .localQ _ _ | .wait _ | .notify _ => True
  | _ => False

def AnyLabel : Label → Prop := fun _ => True

theorem SameCore.shm {s s' : Mem} (h : SameCore s s') :
    s'.shm.core = s.shm.core :=
  congrArg Mem.shm h

theorem SameCore.ll {s s' : Mem} (h : SameCore s s') (n : NodeId) :
    (s'.ll n).core = (s.ll n).core :=
  congrFun (congrArg Mem.ll h) n

theorem SameGlobal.shm {s s' : Mem} (h : SameGlobal s s') :
    s'.shm.core = s.shm.core :=
  congrArg Mem.shm h

theorem SameGlobal.ll {s s' : Mem} (h : SameGlobal s s') (n : NodeId) :
    (s'.ll n).global = (s.ll n).global :=
  congrFun (congrArg Mem.ll h) n

theorem SameCore.global {s s' : Mem} (h : SameCore s s') : SameGlobal s s' := by
  have hll : ∀ n, (s'.ll n).global = (s.ll n).global := fun n => by
    have hn := h.ll n
    rw [LocalLock.global, hn, ← LocalLock.global]
  have hs : { s'.core with ll := fun n => (s'.ll n).global }
      = { s.core with ll := fun n => (s'.ll n).global } := by rw [h]
  exact hs.trans (by simp only [Mem.global, hll])

theorem SameFace.core {s s' : Mem} (h : SameFace s s') : SameCore s s' := by
  have hll : ∀ n, (s'.ll n).core = (s.ll n).core := fun n => by
    have hn : (s'.ll n).face = (s.ll n).face := congrFun (congrArg Mem.ll h) n
    exact congrArg (fun k : LocalLock => { k with holdGlobal := false }) hn
  have hs : { s'.face with ll := fun n => (s'.ll n).core }
      = { s.face with ll := fun n => (s'.ll n).core } := by rw [h]
  exact hs.trans (by simp only [Mem.face, Mem.core, hll])

/-- A relation that does not see what waiting uses. -/
class Hides (R : Mem → Mem → Prop) : Prop where
  of_face : ∀ {s s' : Mem}, SameFace s s' → R s s'

instance : Hides SameFace := ⟨id⟩

instance : Hides SameCore := ⟨SameFace.core⟩

instance : Hides SameGlobal := ⟨fun h => h.core.global⟩

theorem Hides.refl {R : Mem → Mem → Prop} [Hides R] (s : Mem) : R s s := of_face rfl

/-! ### Single fields -/

/-- What is the same of one new local lock is the same of all. -/
theorem ll_keep {γ : Type} {g : LocalLock → γ} {ll : NodeId → LocalLock} {n : NodeId}
    {k : LocalLock} (hk : g k = g (ll n)) (m : NodeId) :
    g (Function.update ll n k m) = g (ll m) := by
  by_cases hm : m = n
  · subst hm
    simpa using hk
  · simp [hm]

section Fields

variable {R : Mem → Mem → Prop} [Hides R]

theorem hides_waitCtx (l : Location) (s : Mem) (v : Option Bool) : R s ((waitCtx l).set v s) :=
  Hides.of_face rfl

theorem hides_pendingCv (l : Location) (s : Mem) (v : Option Bool) : R s ((pendingCv l).set v s) :=
  Hides.of_face rfl

/-- A change of one local lock that its face does not show. -/
theorem hides_local {n : NodeId} {s : Mem} {l : LocalLock} (h : l.face = (s.ll n).face) :
    R s { s with ll := Function.update s.ll n l } := by
  have : ∀ m, (Function.update s.ll n l m).face = (s.ll m).face := ll_keep h
  exact Hides.of_face (by simp only [SameFace, Mem.face, this])

end Fields

/-- A change of one local lock that its core does not show. -/
theorem sameCore_local {n : NodeId} {s : Mem} {l : LocalLock} (h : l.core = (s.ll n).core) :
    SameCore s { s with ll := Function.update s.ll n l } := by
  have : ∀ m, (Function.update s.ll n l m).core = (s.ll m).core := ll_keep h
  simp only [SameCore, Mem.core, this]

theorem sameGlobal_local {n : NodeId} {s : Mem} {l : LocalLock} (h : l.global = (s.ll n).global) :
    SameGlobal s { s with ll := Function.update s.ll n l } := by
  have : ∀ m, (Function.update s.ll n l m).global = (s.ll m).global := ll_keep h
  simp only [SameGlobal, Mem.global, Mem.core, this]

/-! ### The wait queue -/

namespace QueueRef

/-- Writing the queue moves the memory along `R`, and its labels are in `N`. -/
structure Silent {σ ε π : Type} (q : QueueRef σ ε π) (R : σ → σ → Prop) (N : ε → Prop) :
    Prop where
  refl : ∀ s, R s s
  write : ∀ s v, R s (q.ref.set v s)
  lab : ∀ l, N (q.lab l)

namespace Silent

variable {σ ε π α : Type} {q : QueueRef σ ε π} {R : σ → σ → Prop} {N : ε → Prop} {l : QLabel}
  (h : q.Silent R N)

include h

theorem load {p : Place σ α} : Quiet R N (loadAt (q.lab l) p) := .read (h.lab l) h.refl

theorem store {p : Place (RingQueue π) α} {v : α} :
    Quiet R N (storeAt (q.lab l) (q.ref.comp p) v) :=
  .write (h.lab l) fun s => h.write s _

theorem fetch {p : Place (RingQueue π) α} {f : α → α} :
    Quiet R N (fetchAt (q.lab l) (q.ref.comp p) f) :=
  .rmw (h.lab l) fun s _ => h.write s _

theorem casWeak [DecidableEq α] {p : Place (RingQueue π) α} {x v : α} :
    Quiet R N (casWeakAt (q.lab l) (q.ref.comp p) x v) :=
  .casWeak (h.lab l) h.refl fun s => h.write s _

theorem cas [DecidableEq α] {p : Place (RingQueue π) α} {x v : α} :
    Quiet R N (casAt (q.lab l) (q.ref.comp p) x v) :=
  .cas (h.lab l) h.refl fun s _ => h.write s _

theorem tryDecCount : Quiet R N q.tryDecCount :=
  .bind h.load fun _ => .loop fun _ => .ite trivial (.bind h.casWeak fun (_, _) => trivial)

theorem tryMarkTimeout (t : ℕ) : Quiet R N (q.tryMarkTimeout t) :=
  .bind h.load fun _ => .loop fun _ => .ite
    (.bind h.casWeak fun (_, _) =>
      .ite (.bind h.store fun _ => .bind h.tryDecCount fun _ => trivial) trivial)
    trivial

theorem cleanTimeout (t : ℕ) : Quiet R N (q.cleanTimeout t) :=
  .bind (h.tryMarkTimeout t) fun _ => trivial

theorem takeTicket : Quiet R N q.takeTicket :=
  .loop fun _ => .bind h.load fun _ => .bind h.load fun _ =>
    .ite trivial (.bind h.casWeak fun (_, _) => trivial)

theorem enqueue (p : π) : Quiet R N (q.enqueue p) :=
  .bind h.takeTicket fun
    | none => trivial
    | some _ => .bind h.load fun _ => .bind h.store fun _ => .bind h.store fun _ =>
        .bind h.store fun _ => .bind h.fetch fun _ => trivial

theorem outqueue : Quiet R N q.outqueue :=
  .loop fun _ => .ite trivial <| .bind h.load fun _ => .bind h.load fun _ =>
    .ite trivial <| .ite (.bind h.cas fun (_, _) => trivial) trivial

theorem peekHeadModeClean : Quiet R N q.peekHeadModeClean :=
  .loop fun _ => .bind h.load fun _ => .bind h.load fun _ => .ite trivial <|
    .bind h.load fun
      | .writing => trivial
      | .waiting => .bind h.load fun _ => trivial
      | .notified => trivial
      | .timeout => .bind h.casWeak fun _ => trivial
      | .empty => trivial

theorem popHead (t : ℕ) : Quiet R N (q.popHead t) :=
  .bind h.store fun _ => .bind h.store fun _ => .bind h.fetch fun _ => h.tryDecCount

theorem trySelfHandoffIfHead (t : ℕ) : Quiet R N (q.trySelfHandoffIfHead t) :=
  .bind h.load fun _ => .bind h.load fun _ => .ite trivial <| .ite trivial <|
    .bind h.cas fun (_, _) => trivial

end Silent

end QueueRef

/-! ### Waiting and waking -/

section Waiting

variable {α : Type} {R : Mem → Mem → Prop} [Hides R]

theorem sharedQueue_silent : sharedQueue.Silent R Label.Plain :=
  ⟨Hides.refl, fun _ _ => Hides.of_face rfl, fun _ => trivial⟩

theorem localQueue_silent (n : NodeId) : (localQueue n).Silent R Label.Plain :=
  ⟨Hides.refl, fun _ _ => hides_local rfl, fun _ => trivial⟩

theorem quiet_load {p : Place Mem α} : Quiet R Label.Plain (load p) :=
  .read trivial Hides.refl

theorem quiet_choose : Quiet R Label.Plain choose :=
  ⟨trivial, fun s c s' b h => by cases h; exact Hides.of_face rfl, fun _ => trivial⟩

theorem quiet_expired : Quiet R Label.Plain expired := .bind quiet_choose fun _ => trivial

omit [Hides R] in
theorem quiet_ifThen {N : Label → Prop} {b : Bool} {p : Call Unit}
    (hp : Quiet R N p) : Quiet R N (ifThen b p) := .ite hp trivial

theorem quiet_notifyLocalWaiter (l : Location) :
    Quiet R Label.Plain (notifyLocalWaiter l) :=
  .rmw trivial fun s v => hides_waitCtx l s v

theorem quiet_registerWaiter (l : Location) : Quiet R Label.Plain (registerWaiter l) :=
  .write trivial fun s => hides_waitCtx l s _

theorem quiet_unregisterWaiter (l : Location) :
    Quiet R Label.Plain (unregisterWaiter l) :=
  .write trivial fun s => hides_waitCtx l s _

theorem quiet_waitNotified (l : Location) : Quiet R Label.Plain (waitNotified l) := by
  refine ⟨trivial, fun s c s' b hf => ?_, fun _ => trivial⟩
  dsimp only at hf
  split at hf
  · cases hf
    exact Hides.of_face rfl
  · split at hf <;> cases hf
    exact Hides.of_face rfl

omit [Hides R] in
theorem quiet_wakeRule {N : Label → Prop} {peek : Call (Option Mode)}
    {dequeue : Call Unit} (hp : Quiet R N peek) (hd : Quiet R N dequeue) :
    Quiet R N (wakeRule peek dequeue) :=
  .bind hp fun
    | none => trivial
    | some .i => trivial
    | some .x => .bind hd fun _ => trivial
    | some .s => .bind hd fun _ => .loop fun _ => .bind hp fun
      | none => trivial
      | some .i => trivial
      | some .x => trivial
      | some .s => .bind hd fun _ => trivial
      | some .sx => .ite trivial (.bind hd fun _ => trivial)
    | some .sx => .bind hd fun _ => .loop fun _ => .bind hp fun
      | none => trivial
      | some .i => trivial
      | some .x => trivial
      | some .s => .bind hd fun _ => trivial
      | some .sx => trivial

omit [Hides R] in
theorem quiet_dequeueWith {π β : Type} {N : Label → Prop} {q : QueueRef Mem Label π}
    {notify : ℕ → Call β} (ho : Quiet R N q.outqueue) (hn : ∀ i, Quiet R N (notify i)) :
    Quiet R N (dequeueWith q notify) :=
  .loop fun _ => .ite trivial <| .bind ho fun
    | none => trivial
    | some i => .bind (hn i) fun _ => trivial

theorem LocalLock.quiet_dequeueAndNotifyOne (n : NodeId) :
    Quiet R Label.Plain (LocalLock.dequeueAndNotifyOne n) :=
  quiet_dequeueWith (localQueue_silent n).outqueue fun _ =>
    .bind (localQueue_silent n).load fun _ => quiet_notifyLocalWaiter _

theorem LocalLock.quiet_wakeAfterUnlockExclusive (n : NodeId) :
    Quiet R Label.Plain (LocalLock.wakeAfterUnlockExclusive n) :=
  quiet_wakeRule (localQueue_silent n).peekHeadModeClean (quiet_dequeueAndNotifyOne n)

theorem LocalLock.quiet_yieldToWaiters (n : NodeId) (b : Bool) :
    Quiet R Label.Plain (LocalLock.yieldToWaiters n b) :=
  .bind quiet_load fun _ => .ite
    (.bind sharedQueue_silent.load fun _ => .ite trivial
      (.bind (.write trivial fun _ => hides_local rfl) fun _ => trivial))
    trivial

theorem quiet_send (m : Message) : Quiet R Label.Plain (send m) := by
  refine ⟨trivial, fun s c s' b hf => ?_, fun _ => trivial⟩
  dsimp only at hf
  split at hf
  · cases hf
    exact Hides.of_face rfl
  · split at hf <;> cases hf <;> exact Hides.of_face rfl

theorem quiet_sendWithRetry (m : Message) : Quiet R Label.Plain (sendWithRetry m) :=
  .loop fun _ => .ite trivial (.bind (quiet_send m) fun _ => trivial)

theorem quiet_notifyWaiters (i : ℕ) (l : Location) :
    Quiet R Label.Plain (notifyWaiters i l) :=
  .bind sharedQueue_silent.load fun _ => .ite
    (.bind sharedQueue_silent.load fun _ => .bind (quiet_notifyLocalWaiter _) fun _ => trivial) <|
    .bind quiet_load fun _ => .ite trivial <| .bind sharedQueue_silent.load fun _ =>
    .bind (quiet_sendWithRetry _) fun _ => .ite
      (.bind (.bind sharedQueue_silent.load fun _ =>
        .ite (.bind sharedQueue_silent.cas fun _ => trivial) trivial) fun _ => trivial)
      trivial

theorem quiet_dequeueAndNotifyOne (l : Location) :
    Quiet R Label.Plain (dequeueAndNotifyOne l) :=
  quiet_dequeueWith sharedQueue_silent.outqueue fun i => quiet_notifyWaiters i l

theorem quiet_wakeAfterUnlockExclusive (l : Location) :
    Quiet R Label.Plain (wakeAfterUnlockExclusive l) :=
  quiet_wakeRule sharedQueue_silent.peekHeadModeClean (quiet_dequeueAndNotifyOne l)

theorem quiet_wakeIfWaiting (l : Location) : Quiet R Label.Plain (wakeIfWaiting l) :=
  .bind sharedQueue_silent.load fun _ => quiet_ifThen (quiet_wakeAfterUnlockExclusive l)

theorem quiet_wakeAfterSx (now : ℤ) (l : Location) :
    Quiet R Label.Plain (wakeAfterSx now l) :=
  .bind sharedQueue_silent.load fun _ => .ite
    (.ite (.bind (quiet_wakeAfterUnlockExclusive l) fun _ => trivial) <|
      .bind sharedQueue_silent.peekHeadModeClean fun
        | none => trivial
        | some .s => trivial
        | some .x => trivial
        | some .i => trivial
        | some .sx => .bind (quiet_wakeAfterUnlockExclusive l) fun _ => trivial)
    trivial

theorem quiet_notifyPending (n : NodeId) : Quiet R Label.Plain (notifyPending n) :=
  ⟨trivial, fun s c s' b h => by cases h; exact Hides.of_face rfl, fun _ => trivial⟩

theorem quiet_pendingSleep (l : Location) : Quiet R Label.Plain (pendingSleep l) := by
  refine .bind (.write trivial fun s => hides_pendingCv l s _) fun _ => .bind ?_ fun _ =>
    .bind (.write trivial fun s => hides_pendingCv l s _) fun _ => trivial
  refine ⟨trivial, fun s c s' b hf => ?_, fun _ => trivial⟩
  dsimp only at hf
  split at hf
  · split at hf <;> cases hf
    exact Hides.of_face rfl
  · cases hf
    exact Hides.of_face rfl

theorem quiet_waitFollowerS (l : Location) : Quiet R Label.Plain (waitFollowerS l) :=
  .loop fun _ => .bind quiet_load fun _ => .ite trivial <| .bind (quiet_pendingSleep l) fun _ =>
    .ite (.bind quiet_load fun _ => trivial) trivial

theorem quiet_receive (n : NodeId) : Quiet R Label.Plain (receive n) := by
  refine ⟨trivial, fun s c s' b hf => ?_, fun _ => trivial⟩
  dsimp only at hf
  split at hf
  · split at hf <;> cases hf
    exact Hides.of_face rfl
  · cases hf

end Waiting

/-! ### Spin, then queue -/

namespace LockLoop

variable {π G T : Type} [DecidableEq T] {w : LockLoop π} {R : Mem → Mem → Prop} [Hides R]

/-- The parts of a wait loop that never touch the lock fields. -/
structure Waits (w : LockLoop π) : Prop where
  queue : ∀ {R : Mem → Mem → Prop} [Hides R], w.queue.Silent R Label.Plain
  yield : ∀ {R : Mem → Mem → Prop} [Hides R] (b : Bool), Quiet R Label.Plain (w.yield b)
  idle : ∀ {R : Mem → Mem → Prop} [Hides R], Quiet R Label.Plain w.idle

theorem Waits.handoff (hw : w.Waits) (slot : ℕ) : Quiet R Label.Plain (w.handoff slot) :=
  .bind hw.idle fun _ => .ite (hw.queue.trySelfHandoffIfHead slot) trivial

/-- A wait loop has what its parts have. -/
theorem Waits.closed_run {S : (α : Type) → Call α → Prop} (hw : w.Waits) (hS : Closed S)
    (core : ∀ {α : Type} {p : Call α}, Quiet R Label.Plain p → S α p) (attempt : S _ w.attempt)
    (acquired : ∀ b slot, S _ (w.acquired b slot)) (announce : S _ w.announce)
    (giveUp : S _ w.giveUp) : S _ w.run := by
  have spin : ∀ slot b, S _ (w.spin slot b) := fun slot b =>
    hS.loop fun _ => hS.ite (hS.ret _) <| hS.bind (core hw.queue.load) fun _ =>
      hS.ite (hS.ret _) <| hS.bind (core (hw.yield b)) fun _ => hS.ite (hS.ret _) <|
      hS.bind attempt fun _ => hS.ite (hS.bind (acquired b slot) fun _ => hS.ret _) <| hS.ite
        (hS.bind (core quiet_expired) fun _ => hS.ite
          (hS.bind (core (hw.queue.cleanTimeout slot)) fun _ => hS.bind giveUp fun _ => hS.ret _)
          (hS.ret _))
        (hS.ret _)
  have leave : ∀ res : ℕ ⊕ Result, S _ ((unregisterWaiter w.location).bind fun _ => .ret res) :=
    fun _ => hS.bind (core (quiet_unregisterWaiter _)) fun _ => hS.ret _
  have queueUp : S _ w.queueUp :=
    hS.bind (core (quiet_registerWaiter _)) fun _ =>
      hS.bind (core (hw.queue.enqueue _)) fun (_, slot) =>
      hS.ite (hS.bind giveUp fun _ => leave _) <|
      hS.bind (core (hw.handoff slot)) fun _ => hS.bind announce fun _ =>
      hS.bind (hS.ite (hS.ret _) (core (quiet_waitNotified _))) fun _ =>
      hS.ite (leave _) <|
      hS.bind (core (hw.queue.cleanTimeout slot)) fun _ => hS.bind giveUp fun _ => leave _
  exact hS.loop fun (slot, b) => hS.bind (spin slot b) fun
    | some _ => hS.ret _
    | none => hS.bind queueUp fun
      | .inl _ => hS.ret _
      | .inr _ => hS.ret _

/-- A wait loop all of whose parts are quiet. -/
theorem Waits.quiet_run {N : Label → Prop} (hw : w.Waits) (hN : ∀ e, Label.Plain e → N e)
    (attempt : Quiet R N w.attempt) (acquired : ∀ b slot, Quiet R N (w.acquired b slot))
    (announce : Quiet R N w.announce) (giveUp : Quiet R N w.giveUp) : Quiet R N w.run :=
  hw.closed_run (Quiet.closed R N) (fun hp => hp.mono (fun _ _ h => h) hN) attempt acquired announce
    giveUp

section Outline

variable {P : Outline T Mem Label G} {t : T} {keep : G → G → Prop} {g : G} {A B : G → Prop}
  {Q : Result → G → Prop}

/-- What a proof outline has to say about the parts of a wait loop: the loop waits with ghost `g`,
    a successful attempt leads to `A`, giving up leads to `B`. -/
structure Meets (w : LockLoop π) (P : Outline T Mem Label G) (t : T) (keep : G → G → Prop) (g : G)
    (A B : G → Prop) (Q : Result → G → Prop) (R : Mem → Mem → Prop := SameCore) : Prop where
  stable : P.Stable t keep R Label.Plain g
  attempt : wp P t keep w.attempt (fun b g' => if b then A g' else g' = g) g
  acquired : ∀ b slot g', A g' → wp P t keep (w.acquired b slot) (fun _ => Q .success) g'
  announce : wp P t keep w.announce (fun _ g' => g' = g) g
  giveUp : wp P t keep w.giveUp (fun _ => B) g
  gaveUp : ∀ g', B g' → P.Stable t keep R Label.Plain g' ∧ ∀ r, r ≠ .success → Q r g'

omit [Hides R] in
theorem Meets.wp_giveUp {α : Type} (h : w.Meets P t keep g A B Q R) {k : Unit → Call α}
    {Q' : α → G → Prop} (hk : ∀ g', B g' → wp P t keep (k ()) Q' g') :
    wp P t keep (w.giveUp.bind k) Q' g :=
  wp_bind (wp_mono h.giveUp fun _ g' _ hb => hk g' hb)

theorem Meets.wp_leave (h : w.Meets P t keep g A B Q R) {g' : G} (hb : B g') {r : Result}
    (hr : r ≠ .success) :
    wp P t keep ((unregisterWaiter w.location).bind fun _ => .ret (.inr r : ℕ ⊕ Result))
      (fun r' g'' => Sum.elim (fun _ => g'' = g) (fun r'' => Q r'' g'') r') g' :=
  (quiet_unregisterWaiter _).wp_bind (h.gaveUp g' hb).1 fun _ =>
    ⟨(h.gaveUp g' hb).1.rest, (h.gaveUp g' hb).2 r hr⟩

theorem Meets.wp_spin (h : w.Meets P t keep g A B Q R) (hw : w.Waits) (slot : ℕ) (b : Bool) :
    wp P t keep (w.spin slot b)
      (fun r g' => r.elim (g' = g) fun r' => Q r' g') g := by
  have again : ∀ i : ℕ, wp P t keep (.ret (.inl i : ℕ ⊕ Option Result))
      (fun r h' => Sum.elim (fun _ => h' = g) (fun b => b.elim (h' = g) fun r' => Q r' h') r) g :=
    fun i => ⟨h.stable.rest, rfl⟩
  have leave : wp P t keep (.ret (.inr none : ℕ ⊕ Option Result))
      (fun r h' => Sum.elim (fun _ => h' = g) (fun b => b.elim (h' = g) fun r' => Q r' h') r) g :=
    ⟨h.stable.rest, rfl⟩
  refine wp_loop (fun _ h' => h' = g) h.stable.rest rfl ?_
  rintro i _ rfl
  split
  · exact leave
  refine hw.queue.load.wp_bind h.stable fun _ => ?_
  split
  · exact leave
  refine (hw.yield b).wp_bind h.stable fun turn => ?_
  split
  · exact leave
  refine wp_bind (wp_mono h.attempt fun got g' hl hg => ?_)
  cases got with
  | true => exact wp_bind (wp_mono (h.acquired b slot g' hg) fun _ _ hl' hq => ⟨hl', hq⟩)
  | false =>
    obtain rfl : g' = _ := hg
    simp only [Bool.false_eq_true, if_false]
    split
    · refine quiet_expired.wp_bind h.stable fun late => ?_
      split
      · refine (hw.queue.cleanTimeout slot).wp_bind h.stable fun _ => h.wp_giveUp fun g'' hb => ?_
        exact ⟨(h.gaveUp g'' hb).1.rest, (h.gaveUp g'' hb).2 _ (by decide)⟩
      · exact again i
    · exact again (i + 1)

theorem Meets.wp_queueUp (h : w.Meets P t keep g A B Q R) (hw : w.Waits) :
    wp P t keep w.queueUp
      (fun r g' => Sum.elim (fun _ => g' = g) (fun r' => Q r' g') r) g := by
  refine (quiet_registerWaiter _).wp_bind h.stable fun _ => ?_
  refine (hw.queue.enqueue _).wp_bind h.stable fun (res, slot) => ?_
  dsimp only
  split
  · rename_i hres
    exact h.wp_giveUp fun g' hb => h.wp_leave hb hres
  refine (hw.handoff slot).wp_bind h.stable fun selfHandoff => ?_
  refine wp_bind (wp_mono h.announce ?_)
  rintro _ _ - rfl
  have hwait : Quiet R Label.Plain
      (if selfHandoff then pure true else waitNotified w.location) :=
    .ite trivial (quiet_waitNotified _)
  refine hwait.wp_bind h.stable fun woken => ?_
  split
  · exact (quiet_unregisterWaiter _).wp_bind h.stable fun _ => ⟨h.stable.rest, rfl⟩
  · exact (hw.queue.cleanTimeout slot).wp_bind h.stable fun _ =>
      h.wp_giveUp fun g' hb => h.wp_leave hb (by decide)

/-- The rule for the wait loop. -/
theorem Meets.wp_run (h : w.Meets P t keep g A B Q R) (hw : w.Waits) : wp P t keep w.run Q g := by
  refine wp_loop (fun _ h' => h' = g) h.stable.rest rfl ?_
  rintro ⟨slot, b⟩ _ rfl
  refine wp_bind (wp_mono (h.wp_spin hw slot b) fun r g' hl hr => ?_)
  cases r with
  | some r => exact ⟨hl, hr⟩
  | none =>
    obtain rfl : g' = _ := hr
    refine wp_bind (wp_mono (h.wp_queueUp hw) fun r g'' hl' hr' => ?_)
    cases r with
    | inl slot => exact ⟨hl', hr'⟩
    | inr r => exact ⟨hl', hr'⟩

end Outline

end LockLoop

/-! ### The wait loops of the lock calls -/

theorem LocalLock.lockSLoop_waits (l : Location) : (LocalLock.lockSLoop l).Waits :=
  ⟨localQueue_silent _, quiet_yieldToWaiters _, .bind quiet_load fun _ => trivial⟩

theorem LocalLock.lockXLoop_waits (l : Location) : (LocalLock.lockXLoop l).Waits :=
  ⟨localQueue_silent _, fun _ => trivial, .bind quiet_load fun _ => trivial⟩

theorem LocalLock.lockSxLoop_waits (l : Location) : (LocalLock.lockSxLoop l).Waits :=
  ⟨localQueue_silent _, fun _ => trivial, .bind quiet_load fun _ => trivial⟩

theorem spinWaitSLoop_waits (l : Location) : (spinWaitSLoop l).Waits :=
  ⟨sharedQueue_silent, fun _ => trivial, .bind quiet_load fun _ => trivial⟩

theorem spinWaitLoop_waits (e : Grip) (b : Bool) (l : Location) : (spinWaitLoop e b l).Waits :=
  ⟨sharedQueue_silent, fun _ => trivial, .bind quiet_load fun _ => trivial⟩

/-- Asking for a delayed hold may only clear the reservation. -/
theorem quiet_delayReleaseUbLock {R : Mem → Mem → Prop} [Hides R]
    (hres : ∀ s v, R s (Shm.reserveLockOwner.set v s)) (mode : Mode) (l : Location) :
    Quiet R Label.Plain (delayReleaseUbLock mode l) := by
  refine .bind quiet_load fun _ => .ite trivial ?_
  refine .ite trivial <| .ite (.bind (.write trivial fun s => hres s _) fun _ => trivial) ?_
  refine .bind quiet_load fun _ => .ite trivial ?_
  refine .ite (.bind (.write trivial fun s => hres s _) fun _ => trivial) ?_
  exact .bind quiet_load fun _ => .ite trivial (quiet_sendWithRetry _)

/-! ### What an invariant reads

Of the shared object it reads `f`, of every local lock `g`; what leaves both alone keeps it. -/

section Views

variable {α β γ G T : Type} {f : UbRwLock → β} {g : LocalLock → γ} {s s' : Mem} {n : NodeId} {v : α}

/-- `f` of the shared object, `g` of every local lock and the registrations stay. -/
structure Kept (f : UbRwLock → β) (g : LocalLock → γ) (s s' : Mem) : Prop where
  shm : f s'.shm = f s.shm
  ll : ∀ n, g (s'.ll n) = g (s.ll n)
  registered : s'.registered = s.registered

/-- Neither shows what waiting uses. -/
class View (f : UbRwLock → β) (g : LocalLock → γ) : Prop where
  shm : ∀ k, f k.core = f k
  ll : ∀ k, g k.core = g k

theorem Kept.refl (s : Mem) : Kept f g s s := ⟨rfl, fun _ => rfl, rfl⟩

theorem Kept.onLocal {k : LocalLock} (hk : g k = g (s.ll n)) :
    Kept f g s { s with ll := Function.update s.ll n k } :=
  ⟨rfl, ll_keep hk, rfl⟩

theorem Kept.of_core [h : View f g] (hs : SameCore s s') : Kept f g s s' where
  shm := by rw [← h.shm, hs.shm, h.shm]
  ll n := by rw [← h.ll, hs.ll, h.ll]
  registered := (congrArg Mem.registered hs :)

instance [View f g] : Hides (Kept f g) := ⟨fun h => .of_core h.core⟩

theorem quiet_core [View f g] {p : Call α} (hp : Quiet SameCore Label.Plain p) :
    Quiet (Kept f g) AnyLabel p :=
  hp.mono (fun _ _ => .of_core) fun _ _ => trivial

theorem quiet_loadAt {p : Place Mem α} {e : Label} : Quiet (Kept f g) AnyLabel (loadAt e p) :=
  .read trivial .refl

theorem quiet_localStore {get : LocalLock → α} {set : α → LocalLock → LocalLock}
    (h : ∀ k, g (set v k) = g k) : Quiet (Kept f g) AnyLabel (store (Local.field n get set) v) :=
  .write trivial fun _ => .onLocal (h _)

theorem quiet_localCas [DecidableEq α] {get : LocalLock → α} {set : α → LocalLock → LocalLock}
    {x : α} (h : ∀ k, g (set v k) = g k) :
    Quiet (Kept f g) AnyLabel (cas (Local.field n get set) x v) :=
  .cas trivial .refl fun _ _ => .onLocal (h _)

theorem quiet_shmStore {get : UbRwLock → α} {set : α → UbRwLock → UbRwLock}
    (h : ∀ k, f (set v k) = f k) : Quiet (Kept f g) AnyLabel (store (shmField get set) v) :=
  .write trivial fun _ => ⟨h _, fun _ => rfl, rfl⟩

/-- A ghost that does not notice what `f` and `g` hide does not notice the waiting either. -/
theorem stable_core [View f g] {P : Outline T Mem Label G} {t : T} {keep : G → G → Prop}
    {x : G} (h : P.Stable t keep (Kept f g) AnyLabel x) : P.Stable t keep SameCore Label.Plain x :=
  ⟨fun s s' γ hx hs => h.inv s s' γ hx (.of_core hs), h.rest, fun e _ => h.lab e trivial,
    fun e s _ => h.claim e s trivial, h.keep⟩

theorem quiet_announce [View f g] (hres : ∀ v k, f { k with reserveLockOwner := v } = f k)
    (mode : Mode) (l : Location) :
    Quiet (Kept f g) AnyLabel (do let _ ← delayReleaseUbLock mode l : Call Unit) :=
  .bind ((quiet_delayReleaseUbLock (fun s v => ⟨hres v s.shm, fun _ => rfl, rfl⟩) mode l).mono
    (fun _ _ hs => hs) fun _ _ => trivial) fun _ => trivial

/-- Where no token is ever set a message leaves no trace. -/
theorem wp_messageProcess [View f g] [DecidableEq T] {P : Outline T Mem Label G} {t : T}
    {keep : G → G → Prop} {x : G} (hflag : ∀ v k, g { k with remoteReleaseInProgress := v } = g k)
    (hs : P.Stable t keep (Kept f g) AnyLabel x)
    (htoken : wp P t keep (exchange (Local.localIsReserveLock n) .i)
      (fun mode x' => mode = .i ∧ x' = x) x) :
    wp P t keep (messageProcess n) (fun _ x' => x' = x) x := by
  have hdone : wp P t keep (pure () : Call Unit) (fun _ x' => x' = x) x := ⟨hs.rest, rfl⟩
  refine (quiet_core (quiet_receive n)).wp_bind hs fun m => ?_
  split
  · exact hdone
  cases m.type with
  | grant => exact (quiet_core (quiet_notifyLocalWaiter _)).wp_bind hs fun _ => hdone
  | unknown => exact hdone
  | release =>
    have hvalid : Quiet (Kept f g) AnyLabel (validateReleaseLockPointer n m.addr) :=
      .ite trivial <| .ite trivial <| .bind quiet_loadAt fun _ => trivial
    refine hvalid.wp_bind hs fun valid => ?_
    split
    · exact hdone
    have hbegin : Quiet (Kept f g) AnyLabel (LocalLock.tryBeginRemoteRelease n) :=
      .bind (quiet_localCas fun k => hflag true k) fun _ => trivial
    refine hbegin.wp_bind hs fun begun => ?_
    split
    · exact hdone
    refine wp_bind (wp_mono htoken ?_)
    rintro _ _ - ⟨rfl, rfl⟩
    exact (quiet_localStore fun k => hflag false k).wp hs

end Views

/-! ### The local lock

Seen from the global protocol a local lock call does nothing. -/

namespace LocalLock

section

variable {n : NodeId} {α : Type}

/-- A write to one of the fields `LocalLock.global` forgets. -/
theorem quiet_localWrite {get : LocalLock → α} {set : α → LocalLock → LocalLock} {v : α}
    (h : ∀ l, (set v l).global = l.global) :
    Quiet SameGlobal Label.Plain (store (Local.field n get set) v) :=
  .write trivial fun _ => sameGlobal_local (h _)

theorem quiet_localFetch {get : LocalLock → α} {set : α → LocalLock → LocalLock} {f : α → α}
    (h : ∀ v l, (set v l).global = l.global) :
    Quiet SameGlobal Label.Plain (fetch (Local.field n get set) f) :=
  .rmw trivial fun _ v => sameGlobal_local (h v _)

theorem quiet_localCasWeak [DecidableEq α] {get : LocalLock → α} {set : α → LocalLock → LocalLock}
    {x v : α} (h : ∀ l, (set v l).global = l.global) :
    Quiet SameGlobal Label.Plain (casWeak (Local.field n get set) x v) :=
  .casWeak trivial (fun _ => rfl) fun _ => sameGlobal_local (h _)

theorem quiet_localCas [DecidableEq α] {get : LocalLock → α} {set : α → LocalLock → LocalLock}
    {x v : α} (h : ∀ l, (set v l).global = l.global) :
    Quiet SameGlobal Label.Plain (cas (Local.field n get set) x v) :=
  .cas trivial (fun _ => rfl) fun _ _ => sameGlobal_local (h _)

end

theorem quiet_localLockTryAcquireS (n : NodeId) (tid : Tid) :
    Quiet SameGlobal Label.Plain (localLockTryAcquireS n tid) :=
  .bind quiet_load fun _ => .ite trivial <| .ite trivial <| .ite trivial <|
    .bind (quiet_localCasWeak fun _ => rfl) fun (_, _) => trivial

theorem quiet_localLockTryAcquireX (n : NodeId) :
    Quiet SameGlobal Label.Plain (localLockTryAcquireX n) :=
  .bind quiet_load fun _ => .ite trivial <|
    .bind (quiet_localCasWeak fun _ => rfl) fun (_, _) => trivial

theorem quiet_localLockTryAcquireSx (n : NodeId) :
    Quiet SameGlobal Label.Plain (localLockTryAcquireSx n) :=
  .bind quiet_load fun _ => .ite trivial <| .ite trivial <|
    .bind (quiet_localCasWeak fun _ => rfl) fun (_, _) => trivial

theorem quiet_localLockTryReleaseS (n : NodeId) (tid : Tid) :
    Quiet SameGlobal Label.Plain (localLockTryReleaseS n tid) :=
  .bind quiet_load fun _ => .loop fun _ => .ite trivial <| .ite trivial <|
    .bind (quiet_localCas fun _ => rfl) fun (_, _) =>
      .ite (.bind quiet_load fun _ => trivial) trivial

theorem quiet_localLockTryReleaseSx (n : NodeId) :
    Quiet SameGlobal Label.Plain (localLockTryReleaseSx n) :=
  .bind (quiet_localFetch fun _ _ => rfl) fun _ => .ite trivial <|
    .bind quiet_load fun _ => trivial

theorem quiet_lockS (l : Location) : Quiet SameGlobal Label.Plain (lockS l) :=
  (lockSLoop_waits l).quiet_run (fun _ he => he)
    (quiet_localLockTryAcquireS _ _)
    (fun _ slot => .bind (quiet_localFetch fun _ _ => rfl) fun _ =>
      quiet_ifThen ((localQueue_silent _).popHead slot))
    trivial trivial

theorem quiet_lockX (b : Bool) (l : Location) : Quiet SameGlobal Label.Plain (lockX b l) :=
  .bind quiet_load fun _ => .ite
    (.ite (.bind (quiet_localFetch fun _ _ => rfl) fun _ => trivial) trivial) <|
    (lockXLoop_waits l).quiet_run (fun _ he => he)
      (quiet_localLockTryAcquireX _)
      (fun _ slot => .bind (quiet_localWrite fun _ => rfl) fun _ =>
        .bind (quiet_localWrite fun _ => rfl) fun _ =>
        quiet_ifThen ((localQueue_silent _).popHead slot))
      trivial trivial

theorem quiet_lockSx (b : Bool) (l : Location) : Quiet SameGlobal Label.Plain (lockSx b l) :=
  .bind quiet_load fun _ => .ite
    (.ite (.bind (quiet_localFetch fun _ _ => rfl) fun _ => trivial) trivial) <|
    (lockSxLoop_waits l).quiet_run (fun _ he => he)
      (quiet_localLockTryAcquireSx _)
      (fun _ slot => .bind (quiet_localWrite fun _ => rfl) fun _ =>
        .bind (quiet_localWrite fun _ => rfl) fun _ =>
        quiet_ifThen ((localQueue_silent _).popHead slot))
      trivial trivial

theorem quiet_wakeIfLocalWaiting (n : NodeId) (b : Bool) :
    Quiet SameGlobal Label.Plain (ifThen b (wakeAfterUnlockExclusive n)) :=
  quiet_ifThen (quiet_wakeAfterUnlockExclusive n)

theorem quiet_unlockS (l : Location) : Quiet SameGlobal Label.Plain (unlockS l) :=
  .bind (quiet_localLockTryReleaseS _ _) fun
    | none => trivial
    | some _ => .ite
        (.bind (localQueue_silent _).load fun _ =>
          .bind (quiet_wakeIfLocalWaiting _ _) fun _ => trivial)
        trivial

theorem quiet_unlockX (b : Bool) (l : Location) : Quiet SameGlobal Label.Plain (unlockX b l) :=
  .bind quiet_load fun _ => .ite trivial <|
    .bind (.ite (quiet_localFetch fun _ _ => rfl) trivial) fun _ => .ite trivial <|
    .bind (quiet_localWrite fun _ => rfl) fun _ => .bind (quiet_localWrite fun _ => rfl) fun _ =>
    .bind (quiet_localWrite fun _ => rfl) fun _ =>
    .bind (localQueue_silent _).load fun _ =>
    .bind (quiet_wakeIfLocalWaiting _ _) fun _ => trivial

theorem quiet_unlockSx (b : Bool) (l : Location) : Quiet SameGlobal Label.Plain (unlockSx b l) :=
  .bind quiet_load fun _ => .ite trivial <| .bind quiet_load fun _ => .ite trivial <|
    .bind (.ite (quiet_localFetch fun _ _ => rfl) trivial) fun _ => .ite trivial <|
    .bind (quiet_localWrite fun _ => rfl) fun _ => .bind (quiet_localWrite fun _ => rfl) fun _ =>
    .bind (quiet_localLockTryReleaseSx _) fun
      | none => trivial
      | some _ => .bind (localQueue_silent _).load fun _ => .ite
          (.ite (.bind (quiet_wakeAfterUnlockExclusive _) fun _ => trivial) <|
            .bind (localQueue_silent _).peekHeadModeClean fun
              | none => trivial
              | some .s => trivial
              | some .x => trivial
              | some .i => trivial
              | some .sx => .bind (quiet_wakeAfterUnlockExclusive _) fun _ => trivial)
          trivial

end LocalLock

end UbsAtomic
