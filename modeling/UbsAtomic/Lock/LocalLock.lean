import UbsAtomic.Lock.RingQueue

/-! The lock a node keeps in its own process (`lock_optimization.cpp`, class `LocalLock`), with the
    wait contexts of `local_lock.h`.

    Every `lock_*` here, and every global wait loop of `DistributedLock`, has one shape: spin a few
    rounds, then queue up and sleep, then spin again as the woken waiter. `LockLoop.run` is that
    shape; each lock call says what it tries, what it writes once it has the lock, and what it
    undoes when it gives up.

        spin ──(30 rounds, or others wait)──▶ enqueue ──▶ idle and head? ──yes──▶ spin, awakened
          │ got it                                             │ no
          ▼                                                    ▼
        SUCCESS                                   sleep ──notified──▶ spin, awakened
                                                    └───deadline───▶ TIMEOUT -/

namespace UbsAtomic

open Conc Conc.Prog

/-- The steps of a call that other modules speak about; every other step is `step`. -/
inductive Label where
  | step
  | shared (l : QLabel)
  | localQ (n : NodeId) (l : QLabel)
  | wait (l : Location)
  | notify (l : Location)
  | refCompensate (n : NodeId)
  | refReset (n : NodeId)
  | refPublish (n : NodeId)
  | wordRelease (n : NodeId)
  | ownerLoadX (recursive : Bool) (l : Location)
  | delayReserve (n : NodeId)
  | delayOwnerX (n : NodeId)
  deriving DecidableEq

instance : Inhabited Label := ⟨.step⟩

/-- A call on the lock. -/
abbrev Call := Prog Mem Label

/-! ### Where the variables of a node are -/

namespace Local

/-- A field of the local lock of node `n`. -/
def field {α : Type} (n : NodeId) (get : LocalLock → α) (set : α → LocalLock → LocalLock) :
    Place Mem α where
  get s := get (s.ll n)
  set v s := { s with ll := Function.update s.ll n (set v (s.ll n)) }

def lockWord (n : NodeId) : Place Mem StateWord :=
  field n (·.lockWord) fun v l => { l with lockWord := v }

def lane (n : NodeId) (i : Fin 4) : Place Mem Lane :=
  field n (·.lockWord i) fun v l => { l with lockWord := Function.update l.lockWord i v }

def queue (n : NodeId) : Place Mem (RingQueue LocalWaiter) :=
  field n (·.queue) fun v l => { l with queue := v }

def readCount (n : NodeId) : Place Mem ℕ := field n (·.readCount) fun v l => { l with readCount := v }

def lockXOwner (n : NodeId) : Place Mem Tid :=
  field n (·.lockXOwner) fun v l => { l with lockXOwner := v }

def lockSxOwner (n : NodeId) : Place Mem Tid :=
  field n (·.lockSxOwner) fun v l => { l with lockSxOwner := v }

def xRecursive (n : NodeId) : Place Mem ℕ :=
  field n (·.xRecursive) fun v l => { l with xRecursive := v }

def sxRecursive (n : NodeId) : Place Mem ℕ :=
  field n (·.sxRecursive) fun v l => { l with sxRecursive := v }

def localIsReserveLock (n : NodeId) : Place Mem Mode :=
  field n (·.localIsReserveLock) fun v l => { l with localIsReserveLock := v }

def remoteReleaseInProgress (n : NodeId) : Place Mem Bool :=
  field n (·.remoteReleaseInProgress) fun v l => { l with remoteReleaseInProgress := v }

def holdGlobal (n : NodeId) : Place Mem Bool :=
  field n (·.holdGlobal) fun v l => { l with holdGlobal := v }

def globalState (n : NodeId) : Place Mem GlobalState :=
  field n (·.globalState) fun v l => { l with globalState := v }

def globalReadRefCount (n : NodeId) : Place Mem ℤ :=
  field n (·.globalReadRefCount) fun v l => { l with globalReadRefCount := v }

end Local

/-- The queue of the local lock of node `n`. -/
def localQueue (n : NodeId) : QueueRef Mem Label LocalWaiter where
  cap := ubMaxCapacity
  ref := Local.queue n
  reset := .reset
  modeOf := (·.mode)
  lab := .localQ n

/-- The queue in shared memory. -/
def sharedQueue : QueueRef Mem Label UbWaiter where
  cap := ubMaxNodes
  ref := shmField (·.queue) fun v l => { l with queue := v }
  reset := .reset
  modeOf := (·.mode)
  lab := .shared

/-! ### Wait contexts -/

/-- The wait context of a thread, in `WaiterRegistry`. -/
def waitCtx (l : Location) : Place Mem (Option Bool) where
  get s := s.waiters l.nodeId l.tid
  set v s :=
    { s with
      waiters := Function.update s.waiters l.nodeId
        (Function.update (s.waiters l.nodeId) l.tid v) }

/-- `WaiterGuard`: registers a fresh context. -/
def registerWaiter (l : Location) : Call Unit := store (waitCtx l) (some false)

def unregisterWaiter (l : Location) : Call Unit := store (waitCtx l) none

/-- `WaiterRegistry::notify_local_waiter`: whether the thread was found. -/
def notifyLocalWaiter (l : Location) : Call Bool :=
  rmwAt (.notify l) (waitCtx l) fun
    | some _ => (some true, true)
    | none => (none, false)

/-- `local_wait_ctx_t::wait`: blocks until notified; with a choice other than `0` the deadline has
    passed, and the predicate decides. -/
def waitNotified (l : Location) : Call Bool :=
  .act (.wait l) (fun s c =>
    if (waitCtx l).get s = some true then some (s, true)
    else if c = 0 then none else some (s, false)) .ret

/-- `steady_clock::now() > deadline`. -/
def expired : Call Bool := do
  return (← choose) ≠ 0

/-- `ifThen b p` is `if (b) { p; }`. -/
def ifThen (b : Bool) (p : Call Unit) : Call Unit := if b then p else pure ()

/-! ### Spin, then queue -/

/-- What one lock call does at the places where the wait loops differ. -/
structure LockLoop (π : Type) where
  queue : QueueRef Mem Label π
  location : Location
  payload : π
  /-- leave the spin loop for the queue although the lock might be free -/
  yield : Bool → Call Bool
  /-- one attempt at the lock -/
  attempt : Call Bool
  /-- the lock is taken: publish it and drop the own queue entry -/
  acquired : Bool → ℕ → Call Unit
  /-- the lock is completely free -/
  idle : Call Bool
  /-- once queued, ask for a delayed hold -/
  announce : Call Unit
  /-- undo what the caller holds already -/
  giveUp : Call Unit

namespace LockLoop

variable {π : Type} (w : LockLoop π)

/-- The spinning phase: `none` to go and queue. An awakened waiter spins until its deadline. -/
def spin (slot : ℕ) (isAwakened : Bool) : Call (Option Result) :=
  loop (fun i => do
    if i ≥ spinWaitRounds then
      return .inr none
    let waiting ← loadAt (w.queue.lab .step) w.queue.count
    if waiting > 0 ∧ !isAwakened then
      return .inr none
    let turn ← w.yield isAwakened
    if turn then
      return .inr none
    let got ← w.attempt
    if got then
      w.acquired isAwakened slot
      return .inr (some .success)
    if isAwakened then
      let late ← expired
      if late then
        w.queue.cleanTimeout slot
        w.giveUp
        return .inr (some .timeout)
      return .inl i
    return .inl (i + 1)) 0

/-- The self-handoff of a waiter that finds the lock free. -/
def handoff (slot : ℕ) : Call Bool := do
  let free ← w.idle
  if free then w.queue.trySelfHandoffIfHead slot else pure false

/-- The queueing phase: the ticket of the woken waiter, or the result of the call. -/
def queueUp : Call (ℕ ⊕ Result) := do
  registerWaiter w.location
  let (res, slot) ← w.queue.enqueue w.payload
  if res ≠ .success then
    w.giveUp
    unregisterWaiter w.location
    return .inr res
  let selfHandoff ← w.handoff slot
  w.announce
  let woken ← (if selfHandoff then pure true else waitNotified w.location)
  if woken then
    unregisterWaiter w.location
    return .inl slot
  w.queue.cleanTimeout slot
  w.giveUp
  unregisterWaiter w.location
  return .inr .timeout

/-- `while (true)` of the lock calls. -/
def run : Call Result :=
  loop (fun (slot, isAwakened) => do
    match ← w.spin slot isAwakened with
    | some res => return .inr res
    | none =>
      match ← w.queueUp with
      | .inl slot => return .inl (slot, true)
      | .inr res => return .inr res) (0, false)

end LockLoop

/-! ### Single attempts on the local lock word -/

/-- `local_lock_try_acquire_s`. -/
def localLockTryAcquireS (n : NodeId) (tid : Tid) : Call Bool := do
  let state ← load (Local.lockWord n)
  if StateWord.xFlag state then
    return false
  let lane := state (laneForTid tid)
  if lane.sentinel then
    return false
  if lane.count = readerCountMask then
    return false
  let (ok, _) ← casWeak (Local.lane n (laneForTid tid)) lane { lane with count := lane.count + 1 }
  return ok

/-- `local_lock_try_release_s`: the word after the release. -/
def localLockTryReleaseS (n : NodeId) (tid : Tid) : Call (Option StateWord) := do
  let state ← load (Local.lockWord n)
  loop (fun (lane : Lane) => do
    if lane.sentinel then
      return .inr none
    if lane.count = 0 then
      return .inr none
    let (ok, lane) ← cas (Local.lane n (laneForTid tid)) lane { lane with count := lane.count - 1 }
    if ok then
      let after ← load (Local.lockWord n)
      return .inr (some after)
    return .inl lane) (state (laneForTid tid))

/-- `local_lock_try_acquire_x`. -/
def localLockTryAcquireX (n : NodeId) : Call Bool := do
  let state ← load (Local.lockWord n)
  if !StateWord.isIdle state then
    return false
  let (ok, _) ← casWeak (Local.lockWord n) state .xState
  return ok

/-- `local_lock_try_acquire_sx`. -/
def localLockTryAcquireSx (n : NodeId) : Call Bool := do
  let state ← load (Local.lockWord n)
  if StateWord.sxFlag state || StateWord.xFlag state || StateWord.anySentinel state then
    return false
  let lane := state 0
  if lane.flag || lane.sentinel then
    return false
  let (ok, _) ← casWeak (Local.lane n 0) lane { lane with flag := true }
  return ok

/-- `local_lock_try_release_sx`: the word after the release. -/
def localLockTryReleaseSx (n : NodeId) : Call (Option StateWord) := do
  let old ← fetch (Local.lane n 0) fun lane => { lane with flag := false }
  if !old.flag then
    return none
  let after ← load (Local.lockWord n)
  return some after

/-! ### Waking up -/

/-- One round of `dequeue_and_notify_one`, over any queue. -/
def dequeueRound {π β : Type} (q : QueueRef Mem Label π) (notify : ℕ → Call β) (sanity : ℕ) :
    Call (ℕ ⊕ Unit) := do
  if sanity = 0 then
    return .inr ()
  match ← q.outqueue with
  | some i =>
    let _ ← notify i
    return .inr ()
  | none => return .inl (sanity - 1)

/-- `dequeue_and_notify_one` over any queue. -/
def dequeueWith {π β : Type} (q : QueueRef Mem Label π) (notify : ℕ → Call β) : Call Unit :=
  loop (dequeueRound q notify) (ubMaxCapacity * 2)

/-- What `wake_after_unlock_exclusive` does after the first entry, whose mode is given: with S every S
    and one SX up to the next X, with SX every S up to the next SX or X. -/
def wakeRest (peek : Call (Option Mode)) (dequeue : Call Unit) : Mode → Call Unit
  | .s =>
    loop (fun (meetSx : Bool) => do
      match ← peek with
      | some .s =>
        dequeue
        return .inl meetSx
      | some .sx =>
        if meetSx then
          return .inr ()
        dequeue
        return .inl true
      | _ => return .inr ()) false
  | .sx =>
    loop (fun _ => do
      match ← peek with
      | some .s =>
        dequeue
        return .inl ()
      | _ => return .inr ()) ()
  | _ => return ()

/-- What it does after the first look. -/
def wakeNext (peek : Call (Option Mode)) (dequeue : Call Unit) : Option Mode → Call Unit
  | none => return ()
  | some .i => return ()
  | some m => do
    dequeue
    wakeRest peek dequeue m

/-- `wake_after_unlock_exclusive` over any queue. -/
def wakeRule (peek : Call (Option Mode)) (dequeue : Call Unit) : Call Unit :=
  peek.bind (wakeNext peek dequeue)

namespace LocalLock

/-- `LocalLock::notify_one`. -/
def notifyOne (n : NodeId) (i : ℕ) : Call Bool := do
  let w ← loadAt (.localQ n .step) ((localQueue n).payload i)
  notifyLocalWaiter ⟨w.tid, n⟩

/-- `LocalLock::dequeue_and_notify_one`. -/
def dequeueAndNotifyOne (n : NodeId) : Call Unit := dequeueWith (localQueue n) (notifyOne n)

/-- `LocalLock::wake_after_unlock_exclusive`. -/
def wakeAfterUnlockExclusive (n : NodeId) : Call Unit :=
  wakeRule (localQueue n).peekHeadModeClean (dequeueAndNotifyOne n)

/-! ### Lock and unlock -/

/-- The fairness check of `LocalLock::lock_s`: after many readers in a row, global waiters go
    first. -/
def yieldToWaiters (n : NodeId) (isAwakened : Bool) : Call Bool := do
  let reads ← load (Local.readCount n)
  if reads > lockSThreshold ∧ !isAwakened then
    let waiting ← loadAt (.shared .step) sharedQueue.count
    if waiting > 0 then
      return true
    store (Local.readCount n) 0
    return false
  else
    return false

def lockSLoop (l : Location) : LockLoop LocalWaiter where
  queue := localQueue l.nodeId
  location := l
  payload := ⟨.s, l.tid⟩
  yield := yieldToWaiters l.nodeId
  attempt := localLockTryAcquireS l.nodeId l.tid
  acquired := fun isAwakened slot => do
    let _ ← fetch (Local.readCount l.nodeId) fun n => u32 (n + 1)
    ifThen isAwakened ((localQueue l.nodeId).popHead slot)
  idle := do return StateWord.isIdle (← load (Local.lockWord l.nodeId))
  announce := pure ()
  giveUp := pure ()

/-- `LocalLock::lock_s`. -/
def lockS (l : Location) : Call Result := (lockSLoop l).run

def lockXLoop (l : Location) : LockLoop LocalWaiter where
  queue := localQueue l.nodeId
  location := l
  payload := ⟨.x, l.tid⟩
  yield := fun _ => pure false
  attempt := localLockTryAcquireX l.nodeId
  acquired := fun isAwakened slot => do
    store (Local.lockXOwner l.nodeId) l.tid
    store (Local.xRecursive l.nodeId) 1
    ifThen isAwakened ((localQueue l.nodeId).popHead slot)
  idle := do return StateWord.isIdle (← load (Local.lockWord l.nodeId))
  announce := pure ()
  giveUp := pure ()

/-- `LocalLock::lock_x`. -/
def lockX (allowRecursive : Bool) (l : Location) : Call Result := do
  let owner ← load (Local.lockXOwner l.nodeId)
  if owner = l.tid then
    if allowRecursive then
      let _ ← fetch (Local.xRecursive l.nodeId) fun n => u32 (n + 1)
      return .success
    else
      return .conflict
  (lockXLoop l).run

def lockSxLoop (l : Location) : LockLoop LocalWaiter where
  queue := localQueue l.nodeId
  location := l
  payload := ⟨.sx, l.tid⟩
  yield := fun _ => pure false
  attempt := localLockTryAcquireSx l.nodeId
  acquired := fun isAwakened slot => do
    store (Local.lockSxOwner l.nodeId) l.tid
    store (Local.sxRecursive l.nodeId) 1
    ifThen isAwakened ((localQueue l.nodeId).popHead slot)
  idle := do return StateWord.isIdle (← load (Local.lockWord l.nodeId))
  announce := pure ()
  giveUp := pure ()

/-- `LocalLock::lock_sx`. -/
def lockSx (allowRecursive : Bool) (l : Location) : Call Result := do
  let owner ← load (Local.lockSxOwner l.nodeId)
  if owner = l.tid then
    if allowRecursive then
      let _ ← fetch (Local.sxRecursive l.nodeId) fun n => u32 (n + 1)
      return .success
    else
      return .conflict
  (lockSxLoop l).run

/-- `LocalLock::unlock_s`. -/
def unlockS (l : Location) : Call Result := do
  match ← localLockTryReleaseS l.nodeId l.tid with
  | none => return .error
  | some after =>
    if StateWord.isIdle after then
      let waiting ← loadAt (.localQ l.nodeId .step) (localQueue l.nodeId).count
      ifThen (waiting > 0) (wakeAfterUnlockExclusive l.nodeId)
      return .success
    else
      return .success

/-- `x_recursive_.fetch_sub(1)` and its like: the old depth. -/
def popDepth (p : Place Mem ℕ) : Call ℕ := fetch p fun n => u32 (n + 4294967295)

/-- `LocalLock::unlock_x`. -/
def unlockX (allowRecursive : Bool) (l : Location) : Call Result := do
  let owner ← load (Local.lockXOwner l.nodeId)
  if owner ≠ l.tid then
    return .error
  let old ← (if allowRecursive then popDepth (Local.xRecursive l.nodeId) else pure 1)
  if old > 1 then
    return .success
  store (Local.xRecursive l.nodeId) 0
  store (Local.lockXOwner l.nodeId) 0
  store (Local.lockWord l.nodeId) .zero
  let waiting ← loadAt (.localQ l.nodeId .step) (localQueue l.nodeId).count
  ifThen (waiting > 0) (wakeAfterUnlockExclusive l.nodeId)
  return .success

/-- `LocalLock::unlock_sx`. -/
def unlockSx (allowRecursive : Bool) (l : Location) : Call Result := do
  let owner ← load (Local.lockSxOwner l.nodeId)
  if owner ≠ l.tid then
    return .error
  let state ← load (Local.lockWord l.nodeId)
  if !StateWord.sxFlag state then
    return .error
  let old ← (if allowRecursive then popDepth (Local.sxRecursive l.nodeId) else pure 1)
  if old > 1 then
    return .success
  store (Local.sxRecursive l.nodeId) 0
  store (Local.lockSxOwner l.nodeId) 0
  match ← localLockTryReleaseSx l.nodeId with
  | none => return .error
  | some after =>
    let waiting ← loadAt (.localQ l.nodeId .step) (localQueue l.nodeId).count
    if waiting > 0 then
      if StateWord.isIdle after then
        wakeAfterUnlockExclusive l.nodeId
        return .success
      else
        match ← (localQueue l.nodeId).peekHeadModeClean with
        | some .sx =>
          wakeAfterUnlockExclusive l.nodeId
          return .success
        | _ => return .success
    else
      return .success

/-- `LocalLock::is_held`. -/
def isHeld (n : NodeId) : Call Bool := do
  return !StateWord.isIdle (← load (Local.lockWord n))

/-- `LocalLock::try_begin_remote_release`. -/
def tryBeginRemoteRelease (n : NodeId) : Call Bool := do
  let (ok, _) ← cas (Local.remoteReleaseInProgress n) false true
  return ok

/-- `LocalLock::end_remote_release`. -/
def endRemoteRelease (n : NodeId) : Call Unit := store (Local.remoteReleaseInProgress n) false

/-- `LocalLock::try_inc_global_ref`. -/
def tryIncGlobalRef (n : NodeId) : Call Bool := do
  let state ← load (Local.globalState n)
  if state ≠ .held then
    return false
  let ref ← load (Local.globalReadRefCount n)
  loop (fun (ref : ℤ) => do
    if ref ≤ 0 then
      return .inr false
    if ref ≥ 2147483647 then
      return .inr false
    let state ← load (Local.globalState n)
    if state ≠ .held then
      return .inr false
    let (ok, ref) ← casWeak (Local.globalReadRefCount n) ref (ref + 1)
    return if ok then .inr true else .inl ref) ref

end LocalLock

end UbsAtomic
