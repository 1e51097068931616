import UbsAtomic.Conc.Duty
import UbsAtomic.Lock.Client

/-! Followers that wait for the leader's outcome.

    A follower of `lock_s` checks `global_state_` and sleeps on `global_pending_cv_` while it is
    PENDING. The leader changes the state and calls `notify_all`, but never takes the mutex under
    which the follower checks:

        follower   PENDING? yes ──────────────────────────────▶ sleep
        leader                   HELD (or IDLE) ──▶ notify_all

    Nobody else leaves PENDING on the node, and whoever does owes a `notify_all`. -/

namespace UbsAtomic

open Conc Conc.Prog

namespace FollowerWait

variable {n m : NodeId} {l : Location} {s s' : Mem} {α : Type}

/-! ### Who runs -/

/-- On node `n` only S is locked and unlocked; on the other nodes anything may happen. -/
def callsS (n : NodeId) : Actor → Op → Bool
  | .app l, .lockSx _ | .app l, .lockX _ | .app l, .unlockSx _ | .app l, .unlockX _ => l.nodeId ≠ n
  | _, _ => true

def followers (n : NodeId) : LockClient :=
  { lockClient fun _ _ => true with
    allowed := fun a h op => (lockClient fun _ _ => true).allowed a h op && callsS n a op }

/-! ### Sleeping through the outcome -/

/-- The follower sleeps on `global_pending_cv_` and has not been notified. -/
def Asleep (l : Location) (s : Mem) : Prop := s.pending l.nodeId l.tid = some false

instance : Decidable (Asleep l s) := inferInstanceAs (Decidable (_ = _))

/-- What `notify_all` leaves behind: nobody sleeps on the `global_pending_cv_` of node `n`. -/
def AllNotified (n : NodeId) (s : Mem) : Prop := ∀ t, ¬ Asleep ⟨t, n⟩ s

/-- The step from `s` to `s'` leaves GLOBAL_PENDING on node `n`. -/
def Leaves (n : NodeId) (s s' : Mem) : Prop :=
  (s.ll n).globalState = .pending ∧ (s'.ll n).globalState ≠ .pending

/-- The follower sleeps, the outcome is known, and no `lock_s` is still going to notify it. -/
def SleepsThrough (x : LockConfig) (l : Location) : Prop :=
  Asleep l x.mem ∧ (x.mem.ll l.nodeId).globalState ≠ .pending ∧
    ∀ u p, x.pc u = some (.lockS, p) → ¬ p.Owes (AllNotified l.nodeId)

/-- The follower falls asleep only while the state is PENDING. -/
def InTime (l : Location) (x : LockConfig) (_ : Actor) (y : LockConfig) : Prop :=
  Asleep l y.mem → Asleep l x.mem ∨ (x.mem.ll l.nodeId).globalState = .pending

instance (x y : LockConfig) (u : Actor) : Decidable (InTime l x u y) :=
  inferInstanceAs (Decidable (_ → _))

/-! ### Steps that stay -/

/-- PENDING is not left on node `n`. -/
def Stays (n : NodeId) (s s' : Mem) : Prop := ¬ Leaves n s s'

theorem stays_of_eq (h : (s'.ll n).globalState = (s.ll n).globalState) : Stays n s s' := by
  rintro ⟨hs, hs'⟩
  exact hs' (h.trans hs)

theorem stays_of_global (h : SameGlobal s s') : Stays n s s' :=
  stays_of_eq (congrArg LocalLock.globalState (h.ll n) :)

instance : Hides (Stays n) := ⟨fun h => stays_of_global h.core.global⟩

/-- Parts of the call that PENDING on node `n` survives. -/
abbrev Calm (n : NodeId) (p : Call α) : Prop := Quiet (Stays n) (fun _ => True) p

theorem calm_plain {p : Call α} (hp : Quiet (Stays n) Label.Plain p) : Calm n p :=
  hp.mono (fun _ _ h => h) fun _ _ => trivial

theorem calm_global {p : Call α} (hp : Quiet SameGlobal Label.Plain p) : Calm n p :=
  hp.mono (fun _ _ h => stays_of_global h) fun _ _ => trivial

theorem stays_shm {get : UbRwLock → α} {set : α → UbRwLock → UbRwLock} (s : Mem) (v : α) :
    Stays n s ((shmField get set).set v s) :=
  stays_of_eq rfl

/-- A field of a local lock other than the state. -/
theorem stays_local {get : LocalLock → α} {set : α → LocalLock → LocalLock} {v : α}
    (h : ∀ k, (set v k).globalState = k.globalState) (s : Mem) :
    Stays n s ((Local.field m get set).set v s) := by
  refine stays_of_eq ?_
  show (Function.update s.ll m _ n).globalState = _
  rcases eq_or_ne n m with rfl | hne
  · rw [Function.update_self]
    exact h _
  · rw [Function.update_of_ne hne]

theorem stays_other {v : GlobalState} (hne : m ≠ n) (s : Mem) :
    Stays n s ((Local.globalState m).set v s) :=
  stays_of_eq (congrArg LocalLock.globalState (Function.update_of_ne hne.symm _ _))

theorem stays_claim (s : Mem) : Stays n s ((Local.globalState m).set .pending s) := by
  rcases eq_or_ne m n with rfl | hne
  · rintro ⟨-, hs'⟩
    exact hs' (by simp [Local.globalState, Local.field])
  · exact stays_other hne s

theorem calm_load {e : Label} {p : Place Mem α} : Calm n (loadAt e p) :=
  .read trivial fun _ => Hides.refl _

theorem calm_storeShm {e : Label} {get : UbRwLock → α} {set : α → UbRwLock → UbRwLock} {v : α} :
    Calm n (storeAt e (shmField get set) v) :=
  .write trivial fun s => stays_shm s v

theorem calm_fetchShm {e : Label} {get : UbRwLock → α} {set : α → UbRwLock → UbRwLock}
    {f : α → α} : Calm n (fetchAt e (shmField get set) f) :=
  .rmw trivial stays_shm

theorem calm_casWeakShm [DecidableEq α] {e : Label} {get : UbRwLock → α}
    {set : α → UbRwLock → UbRwLock} {x v : α} : Calm n (casWeakAt e (shmField get set) x v) :=
  .casWeak trivial (fun _ => Hides.refl _) fun s => stays_shm s v

theorem calm_casShm [DecidableEq α] {e : Label} {get : UbRwLock → α}
    {set : α → UbRwLock → UbRwLock} {x v : α} : Calm n (casAt e (shmField get set) x v) :=
  .cas trivial (fun _ => Hides.refl _) fun s _ => stays_shm s v

theorem calm_storeLocal {e : Label} {get : LocalLock → α} {set : α → LocalLock → LocalLock} {v : α}
    (h : ∀ k, (set v k).globalState = k.globalState) :
    Calm n (storeAt e (Local.field m get set) v) :=
  .write trivial (stays_local h)

theorem calm_rmwLocal {β : Type} {e : Label} {get : LocalLock → α} {set : α → LocalLock → LocalLock}
    {f : α → α × β} (h : ∀ v k, (set v k).globalState = k.globalState) :
    Calm n (rmwAt e (Local.field m get set) f) :=
  .rmw trivial fun s v => stays_local (h v) s

/-! ### The functions that stay -/

theorem calm_setSharedOwnerBitmap : Calm n (setSharedOwnerBitmap m) :=
  .ite trivial (.bind calm_fetchShm fun _ => trivial)

theorem calm_clearSharedOwnerBitmap : Calm n (clearSharedOwnerBitmap m) :=
  .ite trivial (.bind calm_fetchShm fun _ => trivial)

theorem calm_wakeIfWaiting : Calm n (wakeIfWaiting l) := calm_plain (quiet_wakeIfWaiting l)

theorem calm_delayUnlock (mode : Mode) : Calm n (delayUnlock mode m) := by
  refine .ite trivial (.bind calm_storeShm fun _ => ?_)
  cases mode with
  | s =>
    refine .bind calm_fetchShm fun _ => .ite ?_ (.bind calm_clearSharedOwnerBitmap fun _ => trivial)
    exact .bind calm_wakeIfWaiting fun _ => .bind calm_clearSharedOwnerBitmap fun _ => trivial
  | sx =>
    refine .bind calm_storeShm fun _ => .bind calm_storeShm fun _ => .bind calm_fetchShm fun _ => ?_
    exact .bind (calm_plain (quiet_wakeAfterSx _ _)) fun _ => trivial
  | x =>
    refine .bind calm_storeShm fun _ => .bind calm_storeShm fun _ => .bind calm_storeShm fun _ => ?_
    exact .bind calm_wakeIfWaiting fun _ => trivial
  | i => trivial

theorem calm_delayReleaseLocalLock (mode : Mode) : Calm n (delayReleaseLocalLock mode l) := by
  refine .bind (calm_rmwLocal fun _ _ => rfl) fun _ => .ite trivial ?_
  refine .ite (.bind calm_storeShm fun _ => trivial) ?_
  exact .bind (calm_delayUnlock _) fun _ => trivial

theorem calm_delayReleaseUbLock (mode : Mode) : Calm n (delayReleaseUbLock mode l) :=
  calm_plain (quiet_delayReleaseUbLock (fun s v => stays_shm s v) mode l)

theorem calm_tryDelay (p : Policy) : Calm n (tryDelay p l) := by
  refine .ite trivial <| .bind calm_load fun _ => .ite trivial ?_
  exact .bind calm_load fun _ => .ite trivial <| .bind calm_casShm fun _ => trivial

theorem calm_tryIncGlobalRef : Calm n (LocalLock.tryIncGlobalRef m) := by
  refine .bind calm_load fun _ => .ite trivial <| .bind calm_load fun _ => .loop fun _ => ?_
  refine .ite trivial <| .ite trivial <| .bind calm_load fun _ => .ite trivial ?_
  exact .bind (.casWeak trivial (fun _ => Hides.refl _) (stays_local fun _ => rfl)) fun _ => trivial

theorem calm_takeWordS : Calm n takeWordS :=
  .bind calm_load fun _ => .ite (.bind calm_casWeakShm fun _ => trivial) trivial

theorem calm_ifPopHead (b : Bool) (slot : ℕ) : Calm n (ifThen b (sharedQueue.popHead slot)) :=
  .ite (calm_plain (sharedQueue_silent.popHead slot)) trivial

/-- The last S of a node goes; the state changes only from HELD to IDLE. -/
theorem calm_unlockS (p : Policy) : Calm n (unlockS p l) := by
  have hcas : Calm n (cas (Local.globalState l.nodeId) .held .idle) := by
    refine .cas trivial (fun _ => Hides.refl _) fun s hheld => ?_
    rcases eq_or_ne l.nodeId n with rfl | hne
    · rintro ⟨hs, -⟩
      cases hheld.symm.trans hs
    · exact stays_other hne s
  have hrelease : Calm n (releaseS p l) := by
    refine .bind (calm_tryDelay p) fun _ => .ite ?_ ?_
    · exact .bind (calm_storeLocal fun _ => rfl) fun _ => trivial
    refine .bind (calm_storeLocal fun _ => rfl) fun _ => .bind calm_fetchShm fun _ => ?_
    refine .ite (.bind calm_fetchShm fun _ => trivial) <| .ite ?_ ?_
    · exact .bind calm_wakeIfWaiting fun _ => .bind calm_clearSharedOwnerBitmap fun _ => trivial
    · exact .bind calm_clearSharedOwnerBitmap fun _ => trivial
  refine .ite trivial <| .bind calm_load fun _ => .ite trivial <| .bind calm_load fun _ => ?_
  refine .ite trivial <| .bind (calm_rmwLocal fun _ _ => rfl) fun _ => .ite ?_ <| .ite ?_ ?_
  · exact calm_global (LocalLock.quiet_unlockS l)
  · exact .bind (calm_rmwLocal fun _ _ => rfl) fun _ => trivial
  refine .bind hrelease fun _ => .ite trivial ?_
  refine .bind (calm_storeLocal fun _ => rfl) fun _ => .bind hcas fun _ => ?_
  refine .bind (calm_plain (quiet_notifyPending _)) fun _ => ?_
  exact .bind (calm_storeLocal fun _ => rfl) fun _ => calm_global (LocalLock.quiet_unlockS l)

section Elsewhere

/-! The exclusive modes store IDLE without a look at the state, but on their own node. -/

variable (hne : l.nodeId ≠ n) (p : Policy)

theorem calm_lockExclusive {e : Grip} (howner : ∀ s v, Stays n s (e.owner.set v s))
    (hdepth : ∀ s v, Stays n s (e.depth.set v s)) (hattempt : Calm n e.attempt)
    (hlock : Calm n (e.lockLocal p.recursive l)) (hunlock : Calm n (e.unlockLocal p.recursive l)) :
    Calm n (lockExclusive e p l) := by
  have hspin : Calm n (spinWaitLoop e p.recursive l).run := by
    refine (spinWaitLoop_waits e _ l).quiet_run (fun _ _ => trivial) hattempt (fun _ _ => ?_) ?_ ?_
    · refine .bind (.write trivial (howner · _)) fun _ => .bind (.write trivial (hdepth · _)) fun _ => ?_
      exact .bind (calm_storeLocal fun _ => rfl) fun _ => calm_ifPopHead _ _
    · exact .bind (calm_delayReleaseUbLock _) fun _ => trivial
    · exact .bind hunlock fun _ => trivial
  refine .ite trivial <| .bind calm_load fun _ => .ite trivial ?_
  refine .bind hlock fun _ => .ite trivial ?_
  refine .bind (calm_delayReleaseLocalLock _) fun _ => .ite ?_ ?_
  · refine .bind (.write trivial (howner · _)) fun _ => .bind (.write trivial (hdepth · _)) fun _ => ?_
    exact .bind (calm_storeLocal fun _ => rfl) fun _ => trivial
  refine .bind calm_load fun _ => .ite (.ite ?_ ?_) hspin
  · exact .bind (calm_storeLocal fun _ => rfl) fun _ => .bind (.rmw trivial hdepth) fun _ => trivial
  · exact .bind hunlock fun _ => trivial

theorem calm_lockX : Calm n (lockX p l) :=
  calm_lockExclusive p (fun _ _ => stays_of_eq rfl) (fun _ _ => stays_of_eq rfl)
    (.bind calm_load fun _ => .ite (.bind calm_casWeakShm fun _ => trivial) trivial)
    (calm_global (LocalLock.quiet_lockX _ l)) (calm_global (LocalLock.quiet_unlockX _ l))

theorem calm_lockSx : Calm n (lockSx p l) :=
  calm_lockExclusive p (fun _ _ => stays_of_eq rfl) (fun _ _ => stays_of_eq rfl)
    (.bind calm_load fun _ => .ite (.bind calm_casWeakShm fun _ => trivial) trivial)
    (calm_global (LocalLock.quiet_lockSx _ l)) (calm_global (LocalLock.quiet_unlockSx _ l))

include hne

theorem calm_storeIdle : Calm n (store (Local.globalState l.nodeId) .idle) :=
  .write trivial (stays_other hne)

theorem calm_unlockX : Calm n (unlockX p l) := by
  have hrelease : Calm n (releaseX p l) := by
    refine .bind calm_load fun _ => .ite trivial <| .bind (.ite calm_fetchShm trivial) fun _ => ?_
    refine .ite trivial <| .bind (calm_storeLocal fun _ => rfl) fun _ => ?_
    refine .bind (calm_storeLocal fun _ => rfl) fun _ => .bind calm_storeShm fun _ => ?_
    refine .bind calm_storeShm fun _ => .bind calm_storeShm fun _ => ?_
    exact .bind calm_wakeIfWaiting fun _ => trivial
  have hleave : Calm n (LocalLock.unlockX p.recursive l) := calm_global (LocalLock.quiet_unlockX _ l)
  refine .ite trivial <| .bind calm_load fun _ => .ite trivial ?_
  refine .bind (calm_tryDelay p) fun _ => .ite ?_ ?_
  · refine .bind (calm_storeLocal fun _ => rfl) fun _ => ?_
    refine .bind (calm_storeLocal fun _ => rfl) fun _ => ?_
    exact .bind (calm_storeIdle hne) fun _ => hleave
  · refine .bind hrelease fun _ => .ite trivial ?_
    exact .bind (calm_storeIdle hne) fun _ => hleave

theorem calm_unlockSx : Calm n (unlockSx p l) := by
  have hrelease : Calm n (releaseSx p l) := by
    refine .bind calm_load fun _ => .ite trivial <| .bind (.ite calm_fetchShm trivial) fun _ => ?_
    refine .ite trivial <| .bind (calm_storeLocal fun _ => rfl) fun _ => ?_
    refine .bind (calm_storeLocal fun _ => rfl) fun _ => .bind calm_storeShm fun _ => ?_
    refine .bind calm_storeShm fun _ => .bind calm_fetchShm fun _ => ?_
    exact .bind (calm_plain (quiet_wakeAfterSx _ _)) fun _ => trivial
  have hleave : Calm n (LocalLock.unlockSx p.recursive l) :=
    calm_global (LocalLock.quiet_unlockSx _ l)
  refine .ite trivial <| .bind calm_load fun _ => .ite trivial ?_
  refine .bind (calm_tryDelay p) fun _ => .ite ?_ ?_
  · refine .bind (calm_storeLocal fun _ => rfl) fun _ => ?_
    refine .bind (calm_storeLocal fun _ => rfl) fun _ => ?_
    exact .bind (calm_storeIdle hne) fun _ => hleave
  · refine .bind hrelease fun r => ?_
    rcases r with _ | goOn
    · trivial
    · cases goOn
      · trivial
      · exact .bind (calm_storeIdle hne) fun _ => hleave

end Elsewhere

theorem calm_messageProcess : Calm n (messageProcess m) := by
  have hend : Calm n (LocalLock.endRemoteRelease m) := calm_storeLocal fun _ => rfl
  refine .bind (calm_plain (quiet_receive m)) fun msg => .ite trivial ?_
  cases msg.type with
  | grant => exact .bind (calm_plain (quiet_notifyLocalWaiter _)) fun _ => trivial
  | unknown => trivial
  | release =>
    have hvalid : Calm n (validateReleaseLockPointer m msg.addr) :=
      .ite trivial <| .ite trivial <| .bind calm_load fun _ => trivial
    have hbegin : Calm n (LocalLock.tryBeginRemoteRelease m) :=
      .bind (.cas trivial (fun _ => Hides.refl _) fun s _ => stays_local (fun _ => rfl) s)
        fun _ => trivial
    have hheld : Calm n (LocalLock.isHeld m) := .bind calm_load fun _ => trivial
    refine .bind hvalid fun _ => .ite trivial <| .bind hbegin fun _ => .ite trivial ?_
    refine .bind (calm_rmwLocal fun _ _ => rfl) fun _ => .ite hend ?_
    refine .bind hheld fun _ => .ite hend ?_
    exact .bind (calm_delayUnlock _) fun _ => hend

/-! ### The leader -/

/-- Every step that leaves PENDING on node `n` is followed by `notify_all`. -/
abbrev Answers (n : NodeId) (p : Call α) : Prop := p.Settles (AllNotified n) (Leaves n)

theorem answers_calm {p : Call α} (hp : Calm n p) : Answers n p := hp.settles

theorem owes_notifyPending {k : Unit → Call α} :
    ((notifyPending n).bind k).Owes (AllNotified n) := by
  intro s c s' b hf
  cases hf
  refine .inl fun t hs => ?_
  simp [Asleep] at hs

theorem owes_store {β : Type} {e : Label} {p : Place Mem β} {v : β} {k : Unit → Call α}
    {D : Mem → Prop} (h : (k ()).Owes D) : ((storeAt e p v).bind k).Owes D :=
  fun _ _ _ _ _ => .inr h

/-- The state is stored, and what follows notifies the node. -/
theorem answers_storeState {v : GlobalState} {rest : Unit → Call α}
    (howes : m = n → (rest ()).Owes (AllNotified n)) (hrest : Answers n (rest ())) :
    Answers n ((store (Local.globalState m) v).bind rest) := by
  refine ⟨fun s c s' b hf hleaves => ?_, fun _ => hrest⟩
  cases hf
  rcases eq_or_ne m n with heq | hne
  · exact howes heq
  · exact absurd hleaves (stays_other hne s)

theorem answers_publishS : Answers n (publishS m) := by
  refine (answers_calm (calm_storeLocal fun _ => rfl)).bind fun _ => ?_
  refine (answers_calm (calm_storeLocal fun _ => rfl)).bind fun _ => ?_
  refine answers_storeState ?_ ?_
  · rintro rfl
    exact owes_notifyPending
  · refine answers_calm (.bind (calm_plain (quiet_notifyPending _)) fun _ => ?_)
    exact calm_setSharedOwnerBitmap

theorem answers_cleanupAndUnlockLocal : Answers n (cleanupAndUnlockLocal l) := by
  refine answers_storeState ?_ ?_
  · rintro rfl
    exact owes_store (owes_store owes_notifyPending)
  · refine answers_calm (.bind (calm_storeLocal fun _ => rfl) fun _ => ?_)
    refine .bind (calm_storeLocal fun _ => rfl) fun _ => ?_
    refine .bind (calm_plain (quiet_notifyPending _)) fun _ => ?_
    exact .bind (calm_global (LocalLock.quiet_unlockS l)) fun _ => trivial

theorem calm_waitOrClaimGlobalS : Calm n (waitOrClaimGlobalS l) := by
  have hunlock : Calm n (LocalLock.unlockS l) := calm_global (LocalLock.quiet_unlockS l)
  refine .loop fun _ => .bind calm_tryIncGlobalRef fun _ => .ite trivial ?_
  refine .bind calm_load fun state => ?_
  cases state with
  | idle =>
    exact .bind (.cas trivial (fun _ => Hides.refl _) fun s _ => stays_claim s) fun _ => trivial
  | pending =>
    refine .bind (calm_plain (quiet_waitFollowerS l)) fun _ => .ite trivial ?_
    exact .bind hunlock fun _ => trivial
  | held =>
    refine .bind (calm_plain quiet_expired) fun _ => .ite ?_ trivial
    exact .bind hunlock fun _ => trivial

theorem answers_lockS : Answers n (lockS l) := by
  have hS := Settles.closed (ε := Label) (AllNotified n) (Leaves n)
  have hloop : Answers n (spinWaitSLoop l).run := by
    refine (spinWaitSLoop_waits l).closed_run hS
      (fun hp => answers_calm (calm_plain hp)) ?_ (fun _ _ => ?_) ?_ answers_cleanupAndUnlockLocal
    · exact answers_calm calm_takeWordS
    · exact hS.bind (answers_calm (calm_ifPopHead _ _)) fun _ => answers_publishS
    · exact answers_calm (.bind (calm_delayReleaseUbLock _) fun _ => trivial)
  refine hS.ite trivial <| hS.bind (answers_calm calm_load) fun _ => hS.ite trivial ?_
  refine hS.bind (answers_calm (calm_global (LocalLock.quiet_lockS l))) fun _ => hS.ite trivial ?_
  refine hS.bind (answers_calm calm_waitOrClaimGlobalS) fun _ => hS.ite trivial ?_
  refine hS.bind (answers_calm (calm_delayReleaseLocalLock _)) fun _ => hS.ite ?_ hloop
  exact hS.bind answers_publishS fun _ => trivial

/-- Every call the client makes is a `lock_s` that answers, or leaves PENDING alone. -/
theorem bound_code {a : Actor} {h : Holds} {op : Op}
    (ha : (followers n).allowed a h op = true) :
    Config.Bound (AllNotified n) (Leaves n) (· = .lockS) op (callCode a op) := by
  obtain ⟨-, hn⟩ := Bool.and_eq_true_iff.mp ha
  cases a with
  | app k =>
    cases op with
    | lockS => exact .inl ⟨rfl, answers_lockS⟩
    | lockSx p => exact .inr (calm_lockSx p)
    | lockX p => exact .inr (calm_lockX p)
    | unlockS p => exact .inr (calm_unlockS p)
    | unlockSx p => exact .inr (calm_unlockSx (of_decide_eq_true hn) p)
    | unlockX p => exact .inr (calm_unlockX (of_decide_eq_true hn) p)
    | handle => exact .inr trivial
  | handler m i =>
    cases op with
    | handle => exact .inr (.bind calm_messageProcess fun _ => trivial)
    | _ => exact .inr trivial

/-- A follower that falls asleep only while PENDING does not sleep through the outcome. -/
theorem not_sleepsThrough_of_inTime {x : LockConfig}
    (h : Config.Runs (followers l.nodeId) (InTime l) LockConfig.init x) : ¬ SleepsThrough x l := by
  rintro ⟨hs, hstate, hnone⟩
  have howing : Config.Owing (AllNotified l.nodeId)
      (fun s => Asleep l s ∧ (s.ll l.nodeId).globalState ≠ .pending) (Leaves l.nodeId)
      (· = .lockS) x := by
    refine h.owing (fun _ => rfl) (fun hb => by simp [Asleep, LockConfig.init, Mem.init] at hb)
      (fun a hd op ha => bound_code ha) ?_ (fun s hd hb => hd l.tid hb.1)
    rintro x u y hok ⟨hy, hsettled⟩
    by_cases hp : (x.mem.ll l.nodeId).globalState = .pending
    · exact .inr ⟨hp, hsettled⟩
    · exact .inl ⟨(hok hy).resolve_right hp, hp⟩
  obtain ⟨u, op, p, hu, rfl, ho⟩ := howing.owes ⟨hs, hstate⟩
  exact hnone u p hu ho

/-! ### One leader, one follower -/

/-- Threads 1 and 2 of node 0. -/
def leader : Location := ⟨1, 0⟩

def follower : Location := ⟨2, 0⟩

/-- The leader publishes and notifies between the follower's check and its sleep. -/
def lateSleep : List (Config.Piece Actor Label Op) :=
  [.call (.app leader) .lockS, .steps (.app leader) (List.replicate 12 0),
    .call (.app follower) .lockS, .steps (.app follower) (List.replicate 13 0),
    .finish (.app leader), .steps (.app follower) [0]]

/-- The follower sleeps before the leader publishes: the leader is about to notify it. -/
theorem not_sleepsThrough_of_inTime_published :
    ∃ x, Config.Runs (followers 0) (InTime follower) LockConfig.init x ∧
      Asleep follower x.mem ∧ (x.mem.ll 0).globalState = .held ∧ ¬ SleepsThrough x follower := by
  have hrun : ∃ x, Config.Runs (followers 0) (InTime follower) LockConfig.init x ∧
      Asleep follower x.mem ∧ (x.mem.ll 0).globalState = .held :=
    Config.runs_of_runMoves (InTime follower)
      ([(.app leader, .call .lockS)] ++ List.replicate 12 (.app leader, .step 0) ++
        [(.app follower, .call .lockS)] ++ List.replicate 14 (.app follower, .step 0) ++
        List.replicate 9 (.app leader, .step 0)) _ (by decide +kernel)
  obtain ⟨x, hx, hs, hheld⟩ := hrun
  exact ⟨x, hx, hs, hheld, not_sleepsThrough_of_inTime hx⟩

/-- Whether what remains of a call can end without notifying thread 3, were it asleep too. -/
def leavesAsleep (x : LockConfig) (a : Actor) : Bool :=
  (x.pc a).any fun c => c.2.escapes (fun s => Asleep ⟨3, 0⟩ s)
    ((pendingCv ⟨3, 0⟩).set (some false) x.mem) [1, 0]

theorem not_owes_of_leavesAsleep {x : LockConfig} {a : Actor} {op : Op} {p : Call Result}
    (h : leavesAsleep x a = true) (hp : x.pc a = some (op, p)) : ¬ p.Owes (AllNotified 0) := by
  rw [leavesAsleep, hp] at h
  exact not_owes_of_escapes (fun s hs hall => hall 3 (of_decide_eq_true hs)) h

theorem follower_sleepsThrough :
    ∃ x, Config.Reachable (followers 0) LockConfig.init x ∧ SleepsThrough x follower := by
  have hrun : ∃ x, Config.Reachable (followers 0) LockConfig.init x ∧
      (Asleep follower x.mem ∧ (x.mem.ll 0).globalState = .held ∧
        (x.pc (.app leader)).isNone = true ∧ leavesAsleep x (.app follower) = true) ∧
      ∀ u, u ∉ lateSleep.map Config.Piece.thread → x.pc u = none :=
    Config.reachable_of_runAll_among _ lateSleep (fun q hq => List.mem_map_of_mem hq) (fun _ => rfl)
      (by decide +kernel)
  obtain ⟨x, hx, ⟨hs, hheld, hleader, hfollower⟩, hrest⟩ := hrun
  refine ⟨x, hx, hs, ?_, fun u p hu => ?_⟩
  · rw [show (x.mem.ll follower.nodeId).globalState = .held from hheld]
    decide
  · rcases eq_or_ne u (.app leader) with rfl | hne
    · simp [hu] at hleader
    · rcases eq_or_ne u (.app follower) with rfl | hne'
      · exact not_owes_of_leavesAsleep hfollower hu
      · simp [hrest u (by simp [lateSleep, Config.Piece.thread, hne, hne'])] at hu

end FollowerWait

end UbsAtomic
