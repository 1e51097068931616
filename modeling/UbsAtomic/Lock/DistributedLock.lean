import UbsAtomic.Lock.LocalLock

/-! The distributed lock (`ub_distribute_lock.cpp`, `lock_optimization.cpp`, `message_manage.cpp`):
    S, SX and X over `lock_word`, with the node's local lock taken first.

    `lock_word` starts at 65536. X takes all of it, SX takes 32768, and the first S of a node (its
    leader) takes 1; later S of the same node only raise `global_read_ref_count_`.

        lock_s:   local S ──▶ ref count > 0 and HELD? ──yes──▶ follower: ref count + 1
                              │ no
                              ▼
                  IDLE ──▶ PENDING (leader) ──▶ lock_word - 1 ──▶ ref count := 1 ──▶ HELD
        unlock_s: ref count - 1 ──last──▶ lock_word + 1 ──▶ IDLE ──▶ local unlock

    A delayed release keeps the global hold and leaves a token in `local_is_reserve_lock`; the next
    local lock of that mode inherits it, a RELEASE message gives it back. -/

namespace UbsAtomic

open Conc Conc.Prog

/-- `lookup_local_lock`: whether this process has a local lock for the shared object. -/
def registeredAt (n : NodeId) : Place Mem Bool where
  get s := s.registered n
  set v s := { s with registered := Function.update s.registered n v }

/-- `g_transport != nullptr`. -/
def transportAt : Place Mem Bool where
  get s := s.transport
  set v s := { s with transport := v }

/-- `global_pending_cv_` as thread `l` sees it. -/
def pendingCv (l : Location) : Place Mem (Option Bool) where
  get s := s.pending l.nodeId l.tid
  set v s :=
    { s with
      pending := Function.update s.pending l.nodeId
        (Function.update (s.pending l.nodeId) l.tid v) }

/-- `set_shared_owner_bitmap`. -/
def setSharedOwnerBitmap (n : NodeId) : Call Unit := do
  if n.val ≥ 32 then
    return ()
  let _ ← fetch Shm.sharedOwnerBitmap fun b => b ||| (1#32 <<< n.val)

/-- `clear_shared_owner_bitmap`. -/
def clearSharedOwnerBitmap (n : NodeId) : Call Unit := do
  if n.val ≥ 32 then
    return ()
  let _ ← fetch Shm.sharedOwnerBitmap fun b => b &&& ~~~(1#32 <<< n.val)

/-! ### Messages -/

/-- `UBShmTransport::send` as the lock sees it: delivered later (choice `0`), refused (`1`), or
    delivered although a failure is reported (anything else). -/
def send (m : Message) : Call Bool :=
  .act default (fun s c =>
    if c = 0 then some ({ s with net := s.net ++ [m] }, true)
    else if c = 1 then some (s, false)
    else some ({ s with net := s.net ++ [m] }, false)) .ret

/-- `send_with_retry` with its five attempts. -/
def sendWithRetry (m : Message) : Call Result :=
  loop (fun i => do
    if i ≥ 5 then
      return .inr .error
    let ok ← send m
    return if ok then .inr .success else .inl (i + 1)) 0

/-- `advance_head_after_send_fail` of `notify_waiters`. -/
def advanceHeadAfterSendFail (i : ℕ) : Call Unit := do
  let h ← loadAt (.shared .step) sharedQueue.head
  if sharedQueue.index h = i then
    let _ ← casAt (.shared (.advance h)) sharedQueue.head h (u32 (h + 1))

/-- `DistributedLock::notify_waiters`, for the waiter in slot `i`. -/
def notifyWaiters (i : ℕ) (l : Location) : Call Result := do
  let w ← loadAt (.shared .step) (sharedQueue.payload i)
  if w.location.nodeId = l.nodeId then
    let w ← loadAt (.shared .step) (sharedQueue.payload i)
    let found ← notifyLocalWaiter ⟨w.location.tid, l.nodeId⟩
    return if found then .success else .error
  let up ← load transportAt
  if !up then
    return .error
  let w ← loadAt (.shared .step) (sharedQueue.payload i)
  let ret ← sendWithRetry ⟨l.nodeId, w.location.nodeId, w.location.tid, 0, .grant, w.mode⟩
  if ret ≠ .success then
    advanceHeadAfterSendFail i
    return .error
  return .success

/-- `DistributedLock::dequeue_and_notify_one`. -/
def dequeueAndNotifyOne (l : Location) : Call Unit := dequeueWith sharedQueue (notifyWaiters · l)

/-- `DistributedLock::wake_after_unlock_exclusive`, with `wake_s_chain` and `wake_sx_chain`. -/
def wakeAfterUnlockExclusive (l : Location) : Call Unit :=
  wakeRule sharedQueue.peekHeadModeClean (dequeueAndNotifyOne l)

/-- `if (waiting_count > 0) wake_after_unlock_exclusive(location)`. -/
def wakeIfWaiting (l : Location) : Call Unit := do
  let waiting ← loadAt (.shared .step) sharedQueue.count
  ifThen (waiting > 0) (wakeAfterUnlockExclusive l)

/-- Waking after SX: everybody's turn when the word is full again, else only a leading SX. -/
def wakeAfterSx (now : ℤ) (l : Location) : Call Bool := do
  let waiting ← loadAt (.shared .step) sharedQueue.count
  if waiting > 0 then
    if now = xLockDecr then
      wakeAfterUnlockExclusive l
      return true
    match ← sharedQueue.peekHeadModeClean with
    | none => return false
    | some .sx =>
      wakeAfterUnlockExclusive l
      return true
    | some _ => return true
  else
    return true

/-! ### Delayed release -/

/-- `DistributedLock::delay_unlock`: gives a delayed hold of node `n` back. -/
def delayUnlock (mode : Mode) (n : NodeId) : Call Result := do
  if n.val ≥ ubMaxNodes then
    return .error
  storeAt (.delayReserve n) Shm.reserveLockOwner lockInvalidOwner
  match mode with
  | .s =>
    let old ← fetch Shm.lockWord (· + 1)
    if old + 1 = xLockDecr then
      wakeIfWaiting ⟨0, n⟩
      clearSharedOwnerBitmap n
      return .success
    clearSharedOwnerBitmap n
    return .success
  | .sx =>
    store Shm.lockOwnerSx lockInvalidOwner
    store Shm.sxRecursive 0
    let old ← fetch Shm.lockWord (· + xLockHalfDecr)
    let _ ← wakeAfterSx (old + xLockHalfDecr) ⟨0, n⟩
    return .success
  | .x =>
    storeAt (.delayOwnerX n) Shm.lockOwnerX lockInvalidOwner
    store Shm.xRecursive 0
    store Shm.lockWord xLockDecr
    wakeIfWaiting ⟨0, n⟩
    return .success
  | .i => return .error

/-- `DistributedLock::delay_release_local_lock`: `conflict` means the token was inherited. -/
def delayReleaseLocalLock (mode : Mode) (l : Location) : Call Result := do
  let reserveMode ← exchange (Local.localIsReserveLock l.nodeId) .i
  if reserveMode = .i then
    return .success
  if reserveMode = mode then
    store Shm.reserveLockOwner lockInvalidOwner
    return .conflict
  let _ ← delayUnlock reserveMode l.nodeId
  return .success

/-- `DistributedLock::notify_unlock`. -/
def notifyUnlock (m : Message) : Call Result := do
  let up ← load transportAt
  if !up then
    return .error
  sendWithRetry m

/-- `DistributedLock::delay_release_ub_lock`: asks the node that keeps a delayed hold. -/
def delayReleaseUbLock (mode : Mode) (l : Location) : Call Result := do
  let reserve ← load Shm.reserveLockOwner
  if reserve = lockInvalidOwner then
    return .success
  let owner : NodeId := ⟨reserve / 4294967296 % 256, Nat.mod_lt _ (by decide)⟩
  if owner = l.nodeId then
    return .success
  if owner.val ≥ ubMaxNodes then
    store Shm.reserveLockOwner lockInvalidOwner
    return .error
  let remote ← load (Shm.nodeRegistry owner)
  if remote = 0 then
    return .success
  if remote % 64 ≠ 0 then
    store Shm.reserveLockOwner lockInvalidOwner
    return .error
  notifyUnlock ⟨l.nodeId, owner, 0, remote, .release, mode⟩

/-- The delayed branch of the three unlocks: nobody waits, and the reservation is free. -/
def tryDelay (policy : Policy) (l : Location) : Call Bool := do
  if !policy.allowDelayRelease then
    return false
  let waiting ← loadAt (.shared .step) sharedQueue.count
  if waiting ≠ 0 then
    return false
  let waiting ← loadAt (.localQ l.nodeId .step) (localQueue l.nodeId).count
  if waiting ≠ 0 then
    return false
  let (ok, _) ← cas Shm.reserveLockOwner lockInvalidOwner (makeGlobalOwner l)
  return ok

/-! ### S -/

/-- `global_pending_cv_.notify_all()`. -/
def notifyPending (n : NodeId) : Call Unit :=
  .act default (fun s _ =>
    some ({ s with pending := Function.update s.pending n fun t => (s.pending n t).map fun _ => true },
      ())) .ret

/-- Blocking on `global_pending_cv_`: woken by a signal, by nothing at all (choice `1`), or by the
    deadline (anything else, `true`). -/
def pendingSleep (l : Location) : Call Bool := do
  store (pendingCv l) (some false)
  let late ← .act default (fun s c =>
    if c = 0 then (if s.pending l.nodeId l.tid = some true then some (s, false) else none)
    else some (s, decide (c ≠ 1))) .ret
  store (pendingCv l) none
  return late

/-- `DistributedLock::wait_follower_s`. -/
def waitFollowerS (l : Location) : Call Bool :=
  loop (fun _ => do
    let state ← load (Local.globalState l.nodeId)
    if state ≠ .pending then
      return .inr true
    let late ← pendingSleep l
    if late then
      let state ← load (Local.globalState l.nodeId)
      return .inr (state ≠ .pending)
    return .inl ()) ()

/-- `DistributedLock::wait_or_claim_global_s`: the result, and whether the caller leads. -/
def waitOrClaimGlobalS (l : Location) : Call (Result × Bool) :=
  loop (fun _ => do
    let follows ← LocalLock.tryIncGlobalRef l.nodeId
    if follows then
      return .inr (.success, false)
    let state ← load (Local.globalState l.nodeId)
    match state with
    | .idle =>
      let (ok, _) ← cas (Local.globalState l.nodeId) .idle .pending
      return if ok then .inr (.success, true) else .inl ()
    | .pending =>
      let settled ← waitFollowerS l
      if settled then
        return .inl ()
      let _ ← LocalLock.unlockS l
      return .inr (.timeout, false)
    | .held =>
      let late ← expired
      if late then
        let _ ← LocalLock.unlockS l
        return .inr (.timeout, false)
      return .inl ()) ()

/-- `DistributedLock::cleanup_and_unlock_local`. -/
def cleanupAndUnlockLocal (l : Location) : Call Unit := do
  store (Local.globalState l.nodeId) .idle
  storeAt (.refReset l.nodeId) (Local.globalReadRefCount l.nodeId) 0
  store (Local.holdGlobal l.nodeId) false
  notifyPending l.nodeId
  let _ ← LocalLock.unlockS l

/-- The S leader has the global hold: publish it to the node and to the bitmap. -/
def publishS (n : NodeId) : Call Unit := do
  storeAt (.refPublish n) (Local.globalReadRefCount n) 1
  store (Local.holdGlobal n) true
  store (Local.globalState n) .held
  notifyPending n
  setSharedOwnerBitmap n

/-- One attempt at a unit of `lock_word`. -/
def takeWordS : Call Bool := do
  let cur ← load Shm.lockWord
  if cur > 0 then
    let (ok, _) ← casWeak Shm.lockWord cur (cur - 1)
    return ok
  else
    return false

/-- `lock_word == X_LOCK_DECR`. -/
def wordIdle : Call Bool := do
  return (← load Shm.lockWord) = xLockDecr

def spinWaitSLoop (l : Location) : LockLoop UbWaiter where
  queue := sharedQueue
  location := l
  payload := ⟨.s, l⟩
  yield := fun _ => pure false
  attempt := takeWordS
  acquired := fun isAwakened slot => do
    ifThen isAwakened (sharedQueue.popHead slot)
    publishS l.nodeId
  idle := wordIdle
  announce := do
    let _ ← delayReleaseUbLock .s l
  giveUp := cleanupAndUnlockLocal l

/-- `DistributedLock::verify_param`. -/
def verifyParam (l : Location) : Bool := l.nodeId.val < ubMaxNodes

/-- `DistributedLock::lock_s`; S has no recursion flag. -/
def lockS (l : Location) : Call Result := do
  if !verifyParam l then
    return .error
  let found ← load (registeredAt l.nodeId)
  if !found then
    return .error
  let ret ← LocalLock.lockS l
  if ret ≠ .success then
    return ret
  let (ret, becameLeader) ← waitOrClaimGlobalS l
  if ret ≠ .success ∨ !becameLeader then
    return ret
  let ret ← delayReleaseLocalLock .s l
  if ret = .conflict then
    publishS l.nodeId
    return .success
  (spinWaitSLoop l).run

/-- The last S of a node goes: its unit back to `lock_word`, or kept as a token. -/
def releaseS (policy : Policy) (l : Location) : Call Result := do
  let useDelay ← tryDelay policy l
  if useDelay then
    store (Local.localIsReserveLock l.nodeId) .s
    return .success
  store (Local.localIsReserveLock l.nodeId) .i
  let old ← fetchAt (.wordRelease l.nodeId) Shm.lockWord (· + 1)
  if old + 1 > xLockDecr then
    let _ ← fetch Shm.lockWord (· - 1)
    return .error
  if old + 1 = xLockDecr then
    wakeIfWaiting l
    clearSharedOwnerBitmap l.nodeId
    return .success
  clearSharedOwnerBitmap l.nodeId
  return .success

/-- `DistributedLock::unlock_s`. -/
def unlockS (policy : Policy) (l : Location) : Call Result := do
  if !verifyParam l then
    return .error
  let found ← load (registeredAt l.nodeId)
  if !found then
    return .error
  let state ← load (Local.lockWord l.nodeId)
  let lane := state (laneForTid l.tid)
  if lane.sentinel ∨ lane.count = 0 then
    return .error
  let oldRef ← fetch (Local.globalReadRefCount l.nodeId) (· - 1)
  if oldRef > 1 then
    LocalLock.unlockS l
  else if oldRef ≤ 0 then
    let _ ← fetchAt (.refCompensate l.nodeId) (Local.globalReadRefCount l.nodeId) (· + 1)
    return .error
  else
    let ret ← releaseS policy l
    if ret ≠ .success then
      return .error
    store (Local.holdGlobal l.nodeId) false
    let _ ← cas (Local.globalState l.nodeId) .held .idle
    notifyPending l.nodeId
    store (Local.readCount l.nodeId) 0
    LocalLock.unlockS l

/-! ### Locking X or SX -/

/-- What `lock_x` and `lock_sx` differ in. -/
structure Grip where
  mode : Mode
  owner : Place Mem ℕ
  depth : Place Mem ℕ
  ownerLoad : Bool → Location → Label
  attempt : Call Bool
  lockLocal : Bool → Location → Call Result
  unlockLocal : Bool → Location → Call Result

def spinWaitLoop (e : Grip) (recursive : Bool) (l : Location) : LockLoop UbWaiter where
  queue := sharedQueue
  location := l
  payload := ⟨e.mode, l⟩
  yield := fun _ => pure false
  attempt := e.attempt
  acquired := fun isAwakened slot => do
    store e.owner (makeGlobalOwner l)
    store e.depth 1
    store (Local.holdGlobal l.nodeId) true
    ifThen isAwakened (sharedQueue.popHead slot)
  idle := wordIdle
  announce := do
    let _ ← delayReleaseUbLock e.mode l
  giveUp := do
    let _ ← e.unlockLocal recursive l

def lockExclusive (e : Grip) (policy : Policy) (l : Location) : Call Result := do
  if !verifyParam l then
    return .error
  let found ← load (registeredAt l.nodeId)
  if !found then
    return .error
  let ret ← e.lockLocal policy.recursive l
  if ret ≠ .success then
    return ret
  let ret ← delayReleaseLocalLock e.mode l
  if ret = .conflict then
    store e.owner (makeGlobalOwner l)
    store e.depth 1
    store (Local.holdGlobal l.nodeId) true
    return .success
  let owner ← loadAt (e.ownerLoad policy.recursive l) e.owner
  if owner = makeGlobalOwner l then
    if policy.recursive then
      store (Local.holdGlobal l.nodeId) true
      let _ ← fetch e.depth fun n => u32 (n + 1)
      return .success
    else
      let _ ← e.unlockLocal policy.recursive l
      return .error
  (spinWaitLoop e policy.recursive l).run

/-! ### X -/

/-- One attempt at all of `lock_word`. -/
def takeWordX : Call Bool := do
  let cur ← load Shm.lockWord
  if cur = xLockDecr then
    let (ok, _) ← casWeak Shm.lockWord cur 0
    return ok
  else
    return false

def gripX : Grip :=
  ⟨.x, Shm.lockOwnerX, Shm.xRecursive, .ownerLoadX, takeWordX, LocalLock.lockX, LocalLock.unlockX⟩

/-- `DistributedLock::lock_x`. -/
def lockX (policy : Policy) (l : Location) : Call Result := lockExclusive gripX policy l

/-- The immediate branch of `unlock_x`, down to the wake-up; `false` when the caller is not the
    owner. -/
def releaseX (policy : Policy) (l : Location) : Call Bool := do
  let owner ← load Shm.lockOwnerX
  if owner ≠ makeGlobalOwner l then
    return false
  let old ← (if policy.recursive then LocalLock.popDepth Shm.xRecursive else pure 1)
  if old > 1 then
    return true
  store (Local.localIsReserveLock l.nodeId) .i
  store (Local.holdGlobal l.nodeId) false
  store Shm.lockOwnerX lockInvalidOwner
  store Shm.xRecursive 0
  store Shm.lockWord xLockDecr
  wakeIfWaiting l
  return true

/-- `DistributedLock::unlock_x`. -/
def unlockX (policy : Policy) (l : Location) : Call Result := do
  if !verifyParam l then
    return .error
  let found ← load (registeredAt l.nodeId)
  if !found then
    return .error
  let useDelay ← tryDelay policy l
  if useDelay then
    store (Local.localIsReserveLock l.nodeId) .x
    store (Local.holdGlobal l.nodeId) false
    store (Local.globalState l.nodeId) .idle
    LocalLock.unlockX policy.recursive l
  else
    let owned ← releaseX policy l
    if !owned then
      return .error
    store (Local.globalState l.nodeId) .idle
    LocalLock.unlockX policy.recursive l

/-! ### SX -/

/-- One attempt at half of `lock_word`. -/
def takeWordSx : Call Bool := do
  let cur ← load Shm.lockWord
  if cur > xLockHalfDecr then
    let (ok, _) ← casWeak Shm.lockWord cur (cur - xLockHalfDecr)
    return ok
  else
    return false

def gripSx : Grip :=
  ⟨.sx, Shm.lockOwnerSx, Shm.sxRecursive, fun _ _ => default, takeWordSx, LocalLock.lockSx,
    LocalLock.unlockSx⟩

/-- `DistributedLock::lock_sx`. -/
def lockSx (policy : Policy) (l : Location) : Call Result := lockExclusive gripSx policy l

/-- The immediate branch of `unlock_sx`: `none` when the caller is not the owner, `some false` when
    the call returns right after looking at an unready queue head. -/
def releaseSx (policy : Policy) (l : Location) : Call (Option Bool) := do
  let owner ← load Shm.lockOwnerSx
  if owner ≠ makeGlobalOwner l then
    return none
  let old ← (if policy.recursive then LocalLock.popDepth Shm.sxRecursive else pure 1)
  if old > 1 then
    return some true
  store (Local.localIsReserveLock l.nodeId) .i
  store (Local.holdGlobal l.nodeId) false
  store Shm.lockOwnerSx lockInvalidOwner
  store Shm.sxRecursive 0
  let old ← fetch Shm.lockWord (· + xLockHalfDecr)
  let goOn ← wakeAfterSx (old + xLockHalfDecr) l
  return some goOn

/-- `DistributedLock::unlock_sx`. -/
def unlockSx (policy : Policy) (l : Location) : Call Result := do
  if !verifyParam l then
    return .error
  let found ← load (registeredAt l.nodeId)
  if !found then
    return .error
  let useDelay ← tryDelay policy l
  if useDelay then
    store (Local.localIsReserveLock l.nodeId) .sx
    store (Local.holdGlobal l.nodeId) false
    store (Local.globalState l.nodeId) .idle
    LocalLock.unlockSx policy.recursive l
  else
    match ← releaseSx policy l with
    | none => return .error
    | some false => return .success
    | some true =>
      store (Local.globalState l.nodeId) .idle
      LocalLock.unlockSx policy.recursive l

/-! ### The message handler -/

/-- A message for node `n` arrives: the choice says which of those under way. -/
def receive (n : NodeId) : Call Message :=
  .act default (fun s c =>
    match s.net[c]? with
    | some m => if m.dest = n then some ({ s with net := s.net.eraseIdx c }, m) else none
    | none => none) .ret

/-- `validate_release_lock_pointer`. -/
def validateReleaseLockPointer (n : NodeId) (addr : ℕ) : Call Bool := do
  if addr = 0 then
    return false
  if addr % 64 ≠ 0 then
    return false
  let found ← load (registeredAt n)
  return found && addr = ubLockAddr

/-- The UB_RELEASE case of `message_process_thread_func`. -/
def handleRelease (n : NodeId) (m : Message) : Call Unit := do
  let valid ← validateReleaseLockPointer n m.addr
  if !valid then
    return ()
  let begun ← LocalLock.tryBeginRemoteRelease n
  if !begun then
    return ()
  let oldMode ← exchange (Local.localIsReserveLock n) .i
  if oldMode = .i then
    LocalLock.endRemoteRelease n
  else
    let held ← LocalLock.isHeld n
    if held then
      LocalLock.endRemoteRelease n
    else
      let _ ← delayUnlock oldMode m.dest
      LocalLock.endRemoteRelease n

/-- `message_process_thread_func` on the next message for node `n`. -/
def messageProcess (n : NodeId) : Call Unit := do
  let m ← receive n
  if m.src.val ≥ ubMaxNodes ∨ m.dest.val ≥ ubMaxNodes then
    return ()
  match m.type with
  | .grant =>
    let _ ← notifyLocalWaiter ⟨m.tid, n⟩
  | .release => handleRelease n m
  | .unknown => return ()

end UbsAtomic
