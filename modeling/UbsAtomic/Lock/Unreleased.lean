import UbsAtomic.Lock.QueueCalls
import UbsAtomic.Lock.Rejection

/-! Exits that keep what they should give back.

        UB_RELEASE   token := I ──▶ local lock held? ──yes──▶ return     (the token is gone)
                                        │ no
                                        ▼
                                    delay_unlock: the global hold goes with the token

        unlock_sx    lock_word + 32768 ──▶ readers left, waiters counted,
                                           nothing ready at the head?  ──yes──▶ return SUCCESS
                                        │ no                        (the local SX is still held)
                                        ▼
                                    LocalLock::unlock_sx

    For each exit: exactly when the call does what it says. -/

namespace UbsAtomic

open Conc Conc.Prog

namespace Unreleased

/-! ### UB_RELEASE -/

/-- What a mode takes of `lock_word`. -/
def weight : Mode → ℤ
  | .s => 1
  | .sx => xLockHalfDecr
  | .x => xLockDecr
  | .i => 0

/-- The owner field of the mode, or the bit of node `n`, is cleared. -/
def Cleared (n : NodeId) (a : UbRwLock) : Mode → Prop
  | .s => a.sharedOwnerBitmap.getLsbD n.val = false
  | .sx => a.lockOwnerSx = lockInvalidOwner
  | .x => a.lockOwnerX = lockInvalidOwner
  | .i => True

/-- The global hold of mode `mode` that node `n` kept is given back. -/
structure GivenBack (n : NodeId) (mode : Mode) (s s' : Mem) : Prop where
  lockWord : s'.shm.lockWord = s.shm.lockWord + weight mode
  cleared : Cleared n s'.shm mode
  reserveLockOwner : s'.shm.reserveLockOwner = lockInvalidOwner

/-- The token stays, or it goes together with the hold it stands for. -/
def Settled (n : NodeId) (s s' : Mem) : Prop :=
  (s'.ll n).localIsReserveLock = (s.ll n).localIsReserveLock ∨
    (s.ll n).localIsReserveLock ≠ .i ∧ (s'.ll n).localIsReserveLock = .i ∧
      GivenBack n (s.ll n).localIsReserveLock s s'

/-- The token can be given back: nobody holds the local lock, and X has the whole word. -/
def Loose (n : NodeId) (s : Mem) : Prop :=
  (s.ll n).lockWord = .zero ∧ ((s.ll n).localIsReserveLock = .x → s.shm.lockWord = 0)

section Release

variable {n : NodeId} {s s' : Mem} {a : UbRwLock}

theorem cleared_giveBack (hn : n.val < ubMaxNodes) (mode : Mode) :
    Cleared n (Alone.giveBack n a mode) mode := by
  cases mode with
  | s =>
    have hlt : n.val < 32 := by
      have h16 : n.val < 16 := hn
      omega
    simp [Cleared, Alone.giveBack, Alone.clearBit, hlt]
  | sx => rfl
  | x => rfl
  | i => trivial

theorem lockWord_giveBack {mode : Mode} (hx : mode = .x → a.lockWord = 0) :
    (Alone.giveBack n a mode).lockWord = a.lockWord + weight mode := by
  cases mode with
  | s => rfl
  | sx => rfl
  | x => simp [Alone.giveBack, weight, hx rfl]
  | i => simp [Alone.giveBack, weight]

theorem reserve_giveBack (mode : Mode) :
    (Alone.giveBack n a mode).reserveLockOwner = lockInvalidOwner := by
  cases mode <;> rfl

/-- A RELEASE keeps the token or redeems it exactly if it is turned away, finds no token, or finds
    the token loose. -/
theorem settled_iff {msg : Message} (hn : n.val < ubMaxNodes) (hd : msg.dest = n)
    (hr : Run (handleRelease n msg) s () s') :
    Settled n s s' ↔ ¬ Alone.Begins n msg s (s.ll n) ∨ (s.ll n).localIsReserveLock = .i ∨
      Loose n s := by
  have hend := Alone.ends_handleRelease (m := s.face) (a := s.face.shm) (k := s.face.ll n) hn hd
  rw [Mem.put_self] at hend
  obtain ⟨b, h⟩ := hr.sound hend
  -- what the view of the memory tells about the memory itself
  have htoken : ∀ {a : UbRwLock} {k : LocalLock}, s'.face = s.face.put n a k →
      (s'.ll n).localIsReserveLock = k.localIsReserveLock := by
    intro a k he
    have hll : (s'.face.ll n).localIsReserveLock = ((s.face.put n a k).ll n).localIsReserveLock := by
      rw [he]
    simpa [Mem.face, LocalLock.face, Mem.put] using hll
  rcases h with ⟨hcond, he⟩ | ⟨hbegins, hi, hz, he⟩ | ⟨hbegins, hi, hz, he⟩
  · have htok := htoken he
    refine ⟨fun _ => ?_, fun _ => .inl htok⟩
    rcases hcond with hno | hi
    · exact .inl hno
    · exact .inr (.inl hi)
  · -- the token is dropped, the shared object untouched
    have hcore : s'.shm.core = s.shm.core := congrArg Mem.shm he
    have hword : s'.shm.lockWord = s.shm.lockWord := by
      have h := congrArg UbRwLock.lockWord hcore
      exact h
    constructor
    · rintro (hkeep | ⟨-, -, hback⟩)
      · exact absurd (hkeep.symm.trans (htoken he)) hi
      · have hw : s'.shm.lockWord = s.shm.lockWord + weight (s.ll n).localIsReserveLock :=
          hback.lockWord
        have hi : (s.ll n).localIsReserveLock ≠ .i := hi
        revert hw hi
        rw [hword]
        cases (s.ll n).localIsReserveLock with
        | s =>
          intro hw
          simp [weight] at hw
        | sx =>
          intro hw
          simp [weight, xLockHalfDecr] at hw
        | x =>
          intro hw
          simp [weight, xLockDecr] at hw
        | i => exact fun _ hi => absurd rfl hi
    · rintro (hno | hi' | hloose)
      · exact absurd hbegins hno
      · exact absurd hi' hi
      · exact absurd hloose.1 hz
  · have hcore : s'.shm.core = Alone.giveBack n s.shm.core (s.ll n).localIsReserveLock :=
      congrArg Mem.shm he
    have hword : s'.shm.lockWord =
        (Alone.giveBack n s.shm.core (s.ll n).localIsReserveLock).lockWord := by
      have h := congrArg UbRwLock.lockWord hcore
      exact h
    have hres : s'.shm.reserveLockOwner = lockInvalidOwner := by
      have h := congrArg UbRwLock.reserveLockOwner hcore
      exact h.trans (reserve_giveBack _)
    have hclear : Cleared n s'.shm (s.ll n).localIsReserveLock := by
      have h := cleared_giveBack (a := s.shm.core) hn (s.ll n).localIsReserveLock
      rw [← hcore] at h
      revert h
      cases (s.ll n).localIsReserveLock <;> exact id
    constructor
    · rintro (hkeep | ⟨-, -, hback⟩)
      · exact absurd (hkeep.symm.trans (htoken he)) hi
      · refine .inr (.inr ⟨hz, fun hx => ?_⟩)
        have hw := hback.lockWord
        rw [hword, hx] at hw
        simp only [Alone.giveBack, weight] at hw
        omega
    · rintro (hno | hi' | ⟨-, hx⟩)
      · exact absurd hbegins hno
      · exact absurd hi' hi
      · exact .inr ⟨hi, htoken he, hword.trans (lockWord_giveBack hx), hclear, hres⟩

end Release

/-- The RELEASE that asks node 0 for its hold. -/
def askNodeZero : Message := ⟨1, 0, 0, ubLockAddr, .release, .x⟩

/-- Node 0 has released X with delay; the RELEASE gives it back. -/
theorem settled_iff_x : ∃ x s', Boundary.History (Ledger.client Ledger.nonRecursive)
      (fun _ _ e r => Ledger.Locks e r) Ledger.fresh x ∧
    Run (handleRelease 0 askNodeZero) x.mem () s' ∧ (x.mem.ll 0).localIsReserveLock = .x ∧
    Settled 0 x.mem s' := by
  obtain ⟨x, hx, htok, hz, hword, hany⟩ := Boundary.history_of_play
    (Ledger.client Ledger.nonRecursive) (fun _ _ e r => Ledger.Locks e r) Ledger.fresh
    [(.app ⟨1, 0⟩, .call (.lockX .base)), (.app ⟨1, 0⟩, .call (.unlockX Ledger.delayed))]
    (fun x => (x.mem.ll 0).localIsReserveLock = .x ∧ (x.mem.ll 0).lockWord = .zero ∧
      x.mem.shm.lockWord = 0 ∧ ((handleRelease 0 askNodeZero).exec 1000 x.mem).isSome = true)
    (by decide +kernel)
  obtain ⟨⟨_, s'⟩, hr⟩ := Option.isSome_iff_exists.mp hany
  have hrun := run_of_exec hr
  exact ⟨x, s', hx, hrun, htok,
    (settled_iff (by decide) rfl hrun).mpr (.inr (.inr ⟨hz, fun _ => hword⟩))⟩

/-- Thread 1 of node 0 holds S, thread 2 has released SX with delay. The RELEASE takes the token and
    stops in front of the held local lock: half of the word belongs to nobody, and the reservation
    still names node 0. -/
theorem release_drops_token : ∃ x s', Boundary.History (Ledger.client Ledger.nonRecursive)
      (fun _ _ e r => Ledger.Locks e r) Ledger.fresh x ∧
    Run (handleRelease 0 askNodeZero) x.mem () s' ∧ (x.mem.ll 0).localIsReserveLock = .sx ∧
    (s'.ll 0).localIsReserveLock = .i ∧ s'.shm.lockWord = x.mem.shm.lockWord ∧
    s'.shm.reserveLockOwner = makeGlobalOwner ⟨2, 0⟩ := by
  obtain ⟨x, hx, htok, hany⟩ := Boundary.history_of_play
    (Ledger.client Ledger.nonRecursive) (fun _ _ e r => Ledger.Locks e r) Ledger.fresh
    [(.app ⟨1, 0⟩, .call .lockS), (.app ⟨2, 0⟩, .call (.lockSx .base)),
      (.app ⟨2, 0⟩, .call (.unlockSx Ledger.delayed))]
    (fun x => (x.mem.ll 0).localIsReserveLock = .sx ∧
      ((handleRelease 0 askNodeZero).exec 1000 x.mem).any (fun o =>
        (o.2.ll 0).localIsReserveLock = .i ∧ o.2.shm.lockWord = x.mem.shm.lockWord ∧
        o.2.shm.reserveLockOwner = makeGlobalOwner ⟨2, 0⟩) = true)
    (by decide +kernel)
  obtain ⟨⟨_, s'⟩, hr, hp⟩ := (Option.any_eq_true _ _).mp hany
  exact ⟨x, s', hx, run_of_exec hr, htok, of_decide_eq_true hp⟩

/-! ### The last unlock_sx -/

/-- Thread `tid` holds SX of the local lock, once. -/
structure InnermostSx (tid : Tid) (k : LocalLock) : Prop where
  owner : k.lockSxOwner = tid
  depth : k.sxRecursive = 1
  flag : StateWord.sxFlag k.lockWord = true

/-- Thread `l` holds SX, once. -/
structure HoldsSxOnce (l : Location) (s : Mem) : Prop where
  lockOwnerSx : s.shm.lockOwnerSx = makeGlobalOwner l
  depth : s.shm.sxRecursive = 1
  inner : InnermostSx l.tid (s.ll l.nodeId)

/-- SX of the local lock of node `n` is free. -/
def FreedSx (n : NodeId) (s : Mem) : Prop :=
  StateWord.sxFlag (s.ll n).lockWord = false ∧ (s.ll n).lockSxOwner = 0

/-- The head of the shared queue has nobody to wake: behind its dead entries comes an entry that is
    NOTIFIED or EMPTY, or none. -/
def HeadUnready (s : Mem) : Prop := ∃ j, QueueCalls.Finds ubMaxNodes (·.mode) s.shm.queue j none

/-- Readers left, waiters counted, and nobody to wake at the head. -/
def Unready (s : Mem) : Prop :=
  s.shm.queue.count ≠ 0 ∧ s.shm.lockWord + xLockHalfDecr ≠ xLockDecr ∧ HeadUnready s

section UnlockSx

variable {policy : Policy} {l : Location} {s s' : Mem} {r : Result}

theorem lawful_sharedQueue : sharedQueue.ref.Lawful :=
  ⟨fun _ _ => rfl, fun _ _ _ => rfl, fun _ => rfl⟩

/-- A store to another field of the local lock. -/
theorem innermost_store {α : Type} {n : NodeId} {tid : Tid} {get : LocalLock → α}
    {set : α → LocalLock → LocalLock} {v : α} (h : ∀ k, InnermostSx tid k → InnermostSx tid (set v k))
    (hs : InnermostSx tid (s.ll n)) : InnermostSx tid (((Local.field n get set).set v s).ll n) := by
  have hll : ((Local.field n get set).set v s).ll n = set v (s.ll n) := Function.update_self ..
  rw [hll]
  exact h _ hs

/-- The local part of the release. -/
theorem freed_of_localUnlockSx {b : Bool} (h : InnermostSx l.tid (s.ll l.nodeId))
    (hr : Run (LocalLock.unlockSx b l) s r s') : FreedSx l.nodeId s' := by
  have hend := Alone.ends_localUnlockSx (m := s.face) (a := s.face.shm) (k := s.face.ll l.nodeId)
    (r := b) h.owner h.flag
  rw [Mem.put_self] at hend
  obtain ⟨-, he⟩ := hr.sound hend
  have hk : (s'.ll l.nodeId).face = Alone.leaveSx b (s.face.ll l.nodeId) := by
    have h := congrFun (congrArg Mem.ll he) l.nodeId
    exact h.trans (Function.update_self ..)
  have hd : (s.face.ll l.nodeId).sxRecursive = 1 := h.depth
  rw [Alone.leaveSx, if_neg (by rw [hd]; simp)] at hk
  constructor
  · have h := congrArg (fun k => StateWord.sxFlag k.lockWord) hk
    simpa [StateWord.sxFlag, LocalLock.face, Alone.setSx] using h
  · have h := congrArg LocalLock.lockSxOwner hk
    exact h

/-- What `wakeAfterSx` reports: `false` exactly in front of a head with nobody to wake. -/
theorem run_wakeAfterSx {now : ℤ} {b : Bool} (hr : Run (wakeAfterSx now l) s b s') :
    b = false ↔ s.shm.queue.count ≠ 0 ∧ now ≠ xLockDecr ∧ HeadUnready s := by
  rw [wakeAfterSx] at hr
  have hr := hr.load
  have hcount : sharedQueue.count.get s = s.shm.queue.count := rfl
  rw [hcount] at hr
  split_ifs at hr with hc hfull
  · obtain ⟨-, _, -, hr⟩ := hr.of_bind
    cases hr
    exact ⟨fun h => Bool.noConfusion h, fun h => absurd hfull h.2.1⟩
  · obtain ⟨a, s₁, hpeek, hr⟩ := hr.of_bind
    obtain ⟨j, hfind, -⟩ := hpeek.sound (QueueCalls.ends_peekHeadModeClean lawful_sharedQueue)
    cases a with
    | none =>
      cases hr
      exact ⟨fun _ => ⟨by omega, hfull, j, hfind⟩, fun _ => rfl⟩
    | some m =>
      have hready : ¬ HeadUnready s := by
        rintro ⟨i, hi⟩
        cases (hfind.unique hi).2
      have hb : b = true := by
        cases m with
        | sx =>
          obtain ⟨-, _, -, hr⟩ := Run.of_bind hr
          cases hr
          rfl
        | s => cases hr; rfl
        | x => cases hr; rfl
        | i => cases hr; rfl
      rw [hb]
      exact ⟨fun h => Bool.noConfusion h, fun h => absurd h.2.2 hready⟩
  · cases hr
    exact ⟨fun h => Bool.noConfusion h, fun h => absurd h.1 (by omega)⟩

/-- The immediate branch reports an unready head, and leaves the local SX alone. -/
theorem run_releaseSx {b : Option Bool} (h : HoldsSxOnce l s) (hr : Run (releaseSx policy l) s b s') :
    (b = some true ∨ b = some false) ∧ (b = some false ↔ Unready s) ∧
      InnermostSx l.tid (s'.ll l.nodeId) := by
  have hget : Shm.lockOwnerSx.get s = makeGlobalOwner l := h.lockOwnerSx
  rw [releaseSx] at hr
  have hr := hr.load
  rw [if_neg (not_not.mpr hget)] at hr
  obtain ⟨old, s₁, hpop, hr⟩ := hr.of_bind
  -- one level, popped or not, is the last
  have hold : old = 1 ∧ ∃ d, s₁ = Shm.sxRecursive.set d s := by
    split_ifs at hpop
    · obtain ⟨rfl, rfl⟩ := Rejection.run_fetch hpop
      exact ⟨h.depth, _, rfl⟩
    · cases hpop
      exact ⟨rfl, s.shm.sxRecursive, rfl⟩
  obtain ⟨rfl, d, rfl⟩ := hold
  rw [if_neg (by decide)] at hr
  obtain ⟨goOn, s₂, hwake, hr⟩ := hr.store.store.store.store.rmw.of_bind
  cases hr
  have hface : SameFace _ s' :=
    hwake.quiet (fun _ => rfl) (fun h h' => Eq.trans h' h) (quiet_wakeAfterSx _ l)
  have hkeep : InnermostSx l.tid (s'.face.ll l.nodeId) := by
    rw [show s'.face = _ from hface]
    have h₁ : InnermostSx l.tid
        (((Local.localIsReserveLock l.nodeId).set .i (Shm.sxRecursive.set d s)).ll l.nodeId) :=
      innermost_store (fun _ h => ⟨h.owner, h.depth, h.flag⟩) h.inner
    have h₂ : InnermostSx l.tid (((Local.holdGlobal l.nodeId).set false _).ll l.nodeId) :=
      innermost_store (fun _ h => ⟨h.owner, h.depth, h.flag⟩) h₁
    exact ⟨h₂.owner, h₂.depth, h₂.flag⟩
  refine ⟨?_, ?_, ⟨hkeep.owner, hkeep.depth, hkeep.flag⟩⟩
  · cases goOn with
    | true => exact .inl rfl
    | false => exact .inr rfl
  · have hiff := run_wakeAfterSx hwake
    rw [Option.some.injEq]
    exact hiff

end UnlockSx

/-- The last `unlock_sx` that reports success has freed the local SX exactly if it released with
    delay or did not stop in front of an unready queue. -/
theorem freedSx_iff {policy : Policy} {l : Location} {s s' : Mem} (h : HoldsSxOnce l s)
    (hr : Run (unlockSx policy l) s .success s') :
    FreedSx l.nodeId s' ↔ Rejection.CanDelay policy l s ∨ ¬ Unready s := by
  have hr : Run (Rejection.Exclusive.sx.unlock policy l) s .success s' := hr
  rw [Rejection.unlock_eq] at hr
  have hk : Rejection.Known l s := by
    by_contra hk
    have herr : Result.success = .error :=
      (Rejection.total_guarded_unknown (Q := fun r _ => r = .error) hk rfl).sound hr
    cases herr
  obtain ⟨b, s₁, hdelay, hfinish⟩ := (Rejection.run_guarded hk hr).of_bind
  obtain ⟨hb, hs₁⟩ := Rejection.total_tryDelay.sound hdelay
  cases b with
  | true =>
    have hs₁ : s₁ = Shm.reserveLockOwner.set (makeGlobalOwner l) s := hs₁
    subst hs₁
    have hfinish := Run.store (Run.store (Run.store hfinish))
    have hinner : InnermostSx l.tid
        ((Shm.reserveLockOwner.set (makeGlobalOwner l) s).ll l.nodeId) := h.inner
    refine ⟨fun _ => .inl (hb.mp rfl), fun _ => freed_of_localUnlockSx (b := policy.recursive) ?_ hfinish⟩
    refine innermost_store (fun _ h => ⟨h.owner, h.depth, h.flag⟩) ?_
    refine innermost_store (fun _ h => ⟨h.owner, h.depth, h.flag⟩) ?_
    exact innermost_store (fun _ h => ⟨h.owner, h.depth, h.flag⟩) hinner
  | false =>
    have hs₁ : s₁ = s := hs₁
    subst hs₁
    have hno : ¬ Rejection.CanDelay policy l s₁ := fun hd => Bool.false_ne_true (hb.mpr hd)
    obtain ⟨goOn, s₂, hrel, hfinish⟩ := Run.of_bind hfinish
    obtain ⟨hsome, hiff, hinner⟩ := run_releaseSx h hrel
    rcases hsome with rfl | rfl
    · have hready : ¬ Unready s₁ := fun hu => by cases hiff.mpr hu
      have hfinish := Run.store hfinish
      refine ⟨fun _ => .inr hready, fun _ => freed_of_localUnlockSx (b := policy.recursive) ?_ hfinish⟩
      exact innermost_store (fun _ h => ⟨h.owner, h.depth, h.flag⟩) hinner
    · cases hfinish
      constructor
      · intro hfreed
        exact absurd (hfreed.1.symm.trans hinner.flag) Bool.false_ne_true
      · rintro (hd | hready)
        · exact absurd hd hno
        · exact absurd (hiff.mp rfl) hready

/-- Thread 2 of node 0 holds SX beside a reader of node 1, with the shared queue given. -/
def besideReader (queue : RingQueue UbWaiter) : Mem :=
  { Mem.init with
    shm := { UbRwLock.init with
      lockWord := 32767, queue := queue, lockOwnerSx := makeGlobalOwner ⟨2, 0⟩, sxRecursive := 1
      sharedOwnerBitmap := 2 }
    ll := fun n =>
      if n = 0 then
        { LocalLock.init with
          lockWord := fun i => ⟨0, false, i = 0⟩, lockSxOwner := 2, sxRecursive := 1
          holdGlobal := true, globalState := .held }
      else if n = 1 then
        { LocalLock.init with
          lockWord := fun i => ⟨if i = 1 then 1 else 0, false, false⟩, holdGlobal := true
          globalState := .held, globalReadRefCount := 1 }
      else LocalLock.init }

/-- A queue with a single entry, a waiter for X on node 2. -/
def singleWaiter (state : WaitState) : RingQueue UbWaiter :=
  ⟨0, 1, 1, fun i => if i = 0 then ⟨state, ⟨.x, ⟨3, 2⟩⟩⟩ else ⟨.empty, .reset⟩⟩

theorem holdsSxOnce_besideReader (queue : RingQueue UbWaiter) :
    HoldsSxOnce ⟨2, 0⟩ (besideReader queue) := ⟨rfl, rfl, rfl, rfl, rfl⟩

/-- Behind a waiting entry the local SX is freed. -/
theorem freedSx_iff_waiting : ∃ s', Run (unlockSx .base ⟨2, 0⟩) (besideReader (singleWaiter .waiting))
      .success s' ∧ FreedSx 0 s' := by
  obtain ⟨r, s', hr, hp⟩ := Rejection.run_of_any (p := unlockSx .base ⟨2, 0⟩)
    (s := besideReader (singleWaiter .waiting)) (P := fun o => o.1 = .success) (by decide +kernel)
  obtain rfl := of_decide_eq_true hp
  refine ⟨s', hr, (freedSx_iff (holdsSxOnce_besideReader _) hr).mpr (.inr ?_)⟩
  rintro ⟨-, -, j, hj⟩
  have hfinds : QueueCalls.Finds ubMaxNodes (·.mode)
      (besideReader (singleWaiter .waiting)).shm.queue 0 (some .x) := by
    refine ⟨fun i hi => absurd hi (by omega), ?_⟩
    exact ⟨by decide, by decide, rfl⟩
  cases (hfinds.unique hj).2

/-- The only waiter has been notified and has not left the queue yet: `unlock_sx` succeeds, and the
    local SX stays with a thread that holds nothing any more. -/
theorem unlockSx_keeps_local : ∃ s', Run (unlockSx .base ⟨2, 0⟩)
      (besideReader (singleWaiter .notified)) .success s' ∧ s'.shm.lockOwnerSx = lockInvalidOwner ∧
    StateWord.sxFlag (s'.ll 0).lockWord = true ∧ (s'.ll 0).lockSxOwner = 2 := by
  obtain ⟨r, s', hr, hp⟩ := Rejection.run_of_any (p := unlockSx .base ⟨2, 0⟩)
    (s := besideReader (singleWaiter .notified)) (P := fun o => o.1 = .success ∧
      o.2.shm.lockOwnerSx = lockInvalidOwner ∧ StateWord.sxFlag (o.2.ll 0).lockWord = true ∧
      (o.2.ll 0).lockSxOwner = 2) (by decide +kernel)
  obtain ⟨rfl, hp⟩ := of_decide_eq_true hp
  exact ⟨s', hr, hp⟩

end Unreleased

end UbsAtomic
