import UbsAtomic.Conc.Machine
import UbsAtomic.Lock.RingQueue

/-! The distributed mutex (`ub_mutex_lock.cpp`): one owner word in shared memory, and in every process
    a local lock that its threads take first.

        thread ──▶ MutexLocalLock of its node ──▶ lock_owner in shared memory
                   owner, queue of 256            queue of 16
                   active_users

    The local lock is reached through a registry. `lock_free` takes it out when nobody seems to use
    it, and a later `lock_create` makes another one; threads that still have a pointer to the old one
    go on with that. So the local locks of a node are numbered, and the registry has the number of
    the current one.

    Time is a field of the memory that the surroundings move; deadlines are compared with what a
    call reads there. So are the answers that the transport gives to the sends to come. -/

namespace UbsAtomic

open Conc Conc.Prog

namespace Mutex

def mutexInitEmpty : ℤ := 0
def mutexIniting : ℤ := 1
def mutexReady : ℤ := 2
def defaultMutexTimeoutMs : ℕ := 10000
def mutexYieldInterval : ℕ := 32
def mutexInitWaitRounds : ℕ := 1024 * 1024
def mutexWakeScanLimit : ℕ := ubMaxNodes * 2

/-! ### Memory -/

/-- `ub_mutex_lock`, in shared memory. -/
structure UbMutexLock where
  lockOwner : ℕ
  queue : RingQueue UbWaiter
  isInited : ℤ

/-- `MutexLocalLock`; `waiting_count`, `queue_head`, `queue_tail` and `q` are its queue. -/
structure MutexLocalLock where
  owner : ℕ
  activeUsers : ℕ
  queue : RingQueue LocalWaiter

def MutexLocalLock.init : MutexLocalLock := ⟨lockInvalidOwner, 0, .init .reset⟩

/-- What became of one `g_transport->send`: taken with result 0, taken with another result, or not. -/
inductive Sent where | taken | congested | refused
  deriving DecidableEq, Repr

/-- `locals n g` is the local lock number `g` of node `n`, `registry n` the number of the registered
    one, `made n` how many there have been; `removing n` while the registry's mutex is held for
    removal. Times are in nanoseconds. -/
structure Mem where
  shm : UbMutexLock
  locals : NodeId → ℕ → MutexLocalLock
  registry : NodeId → Option ℕ
  made : NodeId → ℕ
  removing : NodeId → Bool
  waiters : NodeId → Tid → Option Bool
  net : List Message
  transport : Bool
  answers : ℕ → Sent
  clock : ℤ

/-- The steps that other modules speak about; every other step is `step`. -/
inductive Label where
  | step
  | shared (l : QLabel)
  | localQ (n : NodeId) (g : ℕ) (l : QLabel)
  | wait (l : Location)
  | notify (l : Location)
  | acquire (l : Location)
  | release (l : Location)
  | claim (l : Location)
  | claimGlobal (l : Location)
  | unclaim (l : Location)
  | unclaimGlobal (l : Location)
  | lastIdleTest (n : NodeId)
  | unregister (n : NodeId)
  | deadlineTest (isAwakened : Bool)
  | recursionTest (isAwakened : Bool)
  deriving DecidableEq

instance : Inhabited Label := ⟨.step⟩

abbrev Call := Prog Mem Label

/-! ### Where the variables are -/

namespace Shm

/-- A field of the shared object. -/
def field {α : Type} (get : UbMutexLock → α) (set : α → UbMutexLock → UbMutexLock) : Place Mem α where
  get s := get s.shm
  set v s := { s with shm := set v s.shm }

def lockOwner : Place Mem ℕ := field (·.lockOwner) fun v k => { k with lockOwner := v }

def isInited : Place Mem ℤ := field (·.isInited) fun v k => { k with isInited := v }

def queue : Place Mem (RingQueue UbWaiter) := field (·.queue) fun v k => { k with queue := v }

end Shm

namespace Local

/-- A field of the local lock `g` of node `n`. -/
def field {α : Type} (n : NodeId) (g : ℕ) (get : MutexLocalLock → α)
    (set : α → MutexLocalLock → MutexLocalLock) : Place Mem α where
  get s := get (s.locals n g)
  set v s :=
    { s with
      locals := Function.update s.locals n
        (Function.update (s.locals n) g (set v (s.locals n g))) }

def owner (n : NodeId) (g : ℕ) : Place Mem ℕ := field n g (·.owner) fun v k => { k with owner := v }

def activeUsers (n : NodeId) (g : ℕ) : Place Mem ℕ :=
  field n g (·.activeUsers) fun v k => { k with activeUsers := v }

def queue (n : NodeId) (g : ℕ) : Place Mem (RingQueue LocalWaiter) :=
  field n g (·.queue) fun v k => { k with queue := v }

end Local

def clockAt : Place Mem ℤ := ⟨fun s => s.clock, fun v s => { s with clock := v }⟩

def transportAt : Place Mem Bool := ⟨fun s => s.transport, fun v s => { s with transport := v }⟩

def registryAt (n : NodeId) : Place Mem (Option ℕ) where
  get s := s.registry n
  set v s := { s with registry := Function.update s.registry n v }

def removingAt (n : NodeId) : Place Mem Bool where
  get s := s.removing n
  set v s := { s with removing := Function.update s.removing n v }

def waitCtx (l : Location) : Place Mem (Option Bool) where
  get s := s.waiters l.nodeId l.tid
  set v s :=
    { s with
      waiters := Function.update s.waiters l.nodeId
        (Function.update (s.waiters l.nodeId) l.tid v) }

/-- The wait queue in shared memory. -/
def sharedQueue : QueueRef Mem Label UbWaiter where
  cap := ubMaxNodes
  ref := Shm.queue
  reset := .reset
  modeOf := (·.mode)
  lab := .shared

/-- The wait queue of a local lock. -/
def localQueue (n : NodeId) (g : ℕ) : QueueRef Mem Label LocalWaiter where
  cap := ubMaxCapacity
  ref := Local.queue n g
  reset := .reset
  modeOf := (·.mode)
  lab := .localQ n g

/-! ### Wait contexts and messages -/

def registerWaiter (l : Location) : Call Unit := store (waitCtx l) (some false)

def unregisterWaiter (l : Location) : Call Unit := store (waitCtx l) none

/-- What `notify` does to a wait context, and whether there is one. -/
def notified : Option Bool → Option Bool × Bool
  | some _ => (some true, true)
  | none => (none, false)

/-- `WaiterRegistry::notify_local_waiter`. -/
def notifyLocalWaiter (l : Location) : Call Bool := rmwAt (.notify l) (waitCtx l) notified

/-- `local_wait_ctx_t::wait`: blocks until notified or until the deadline. -/
def waitNotified (l : Location) (deadline : ℤ) : Call Bool :=
  .act (.wait l) (fun s _ =>
    if (waitCtx l).get s = some true then some (s, true)
    else if deadline ≤ s.clock then some (s, false)
    else none) .ret

/-- `g_transport->send`: whether the result was 0. -/
def send (m : Message) : Call Bool :=
  .act .step (fun s _ =>
    some ({ s with
      answers := fun k => s.answers (k + 1)
      net := if s.answers 0 = .refused then s.net else m :: s.net }, decide (s.answers 0 = .taken))) .ret

/-- `mutex_send_with_retry`. -/
def mutexSendWithRetry (m : Message) (maxAttempts : ℕ) : Call Bool := do
  let up ← load transportAt
  if !up then
    return false
  loop (fun i => do
    if i ≥ maxAttempts then
      return .inr false
    let ok ← send m
    return if ok then .inr true else .inl (i + 1)) 0

/-! ### The registry of local locks -/

/-- `lookup_mutex_local_lock`. -/
def lookupMutexLocalLock (n : NodeId) : Call (Option ℕ) :=
  .act .step (fun s _ => if s.removing n then none else some (s, s.registry n)) .ret

/-- `acquire_mutex_local_lock`. The look-up and the counting are one critical section. -/
def acquireMutexLocalLock (l : Location) : Call (Option ℕ) :=
  .act (.acquire l) (fun s _ =>
    if s.removing l.nodeId then none
    else match s.registry l.nodeId with
      | none => some (s, none)
      | some g =>
        some ((Local.activeUsers l.nodeId g).set
          (u32 ((s.locals l.nodeId g).activeUsers + 1)) s, some g)) .ret

/-- `release_mutex_local_lock`. -/
def releaseMutexLocalLock (l : Location) (g : ℕ) : Call Unit := do
  let _ ← fetchAt (.release l) (Local.activeUsers l.nodeId g) fun k => u32Sub k 1

/-- `register_mutex_local_lock`: a fresh one, unless there is one. -/
def registerMutexLocalLock (n : NodeId) : Call Unit :=
  .act .step (fun s _ =>
    if s.removing n then none
    else if s.registry n = none then
      some ({ s with
        registry := Function.update s.registry n (some (s.made n))
        made := Function.update s.made n (s.made n + 1)
        locals := Function.update s.locals n (Function.update (s.locals n) (s.made n) .init) }, ())
    else some (s, ())) .ret

/-- The registry's mutex, taken for removal. -/
def lockRegistry (n : NodeId) : Call Unit :=
  .act .step (fun s _ => if s.removing n then none else some ((removingAt n).set true s, ())) .ret

def unlockRegistry (n : NodeId) : Call Unit := store (removingAt n) false

/-- The three tests of `unregister_mutex_local_lock_if_idle`, each made only if the one before
    held. -/
def isIdle (n : NodeId) (g : ℕ) : Call Bool := do
  let owner ← load (Local.owner n g)
  if owner ≠ lockInvalidOwner then
    return false
  let waiting ← load (localQueue n g).count
  if waiting ≠ 0 then
    return false
  let users ← loadAt (.lastIdleTest n) (Local.activeUsers n g)
  return users = 0

/-- `unregister_mutex_local_lock_if_idle`. -/
def unregisterMutexLocalLockIfIdle (n : NodeId) : Call (Option ℕ) := do
  lockRegistry n
  match ← load (registryAt n) with
  | none =>
    unlockRegistry n
    return none
  | some g =>
    let idle ← isIdle n g
    if idle then
      storeAt (.unregister n) (registryAt n) none
      unlockRegistry n
      return some g
    unlockRegistry n
    return none

/-! ### Waking one waiter -/

/-- The loop body of `wake_one_mutex_local_waiter` and `wake_one_waiter`. -/
def wakeRound {π : Type} (q : QueueRef Mem Label π) (notify : ℕ → Call Bool) (sanity : ℕ) :
    Call (ℕ ⊕ Unit) := do
  if sanity = 0 then
    return .inr ()
  q.advanceDeadHead
  let ticket ← loadAt (q.lab .step) q.head
  match ← q.outqueue with
  | some i =>
    let found ← notify i
    if found then
      return .inr ()
    q.popHead ticket
    return .inl (sanity - 1)
  | none =>
    let waiting ← loadAt (q.lab .step) q.count
    return if waiting = 0 then .inr () else .inl (sanity - 1)

def wakeOne {π : Type} (q : QueueRef Mem Label π) (notify : ℕ → Call Bool) (limit : ℕ) : Call Unit :=
  loop (wakeRound q notify) limit

/-- The notification made by `wake_one_mutex_local_waiter`. -/
def notifyMutexLocalWaiter (n : NodeId) (g : ℕ) (i : ℕ) : Call Bool := do
  let w ← loadAt (.localQ n g .step) ((localQueue n g).payload i)
  notifyLocalWaiter ⟨w.tid, n⟩

/-- `wake_one_mutex_local_waiter`. -/
def wakeOneMutexLocalWaiter (n : NodeId) (g : ℕ) : Call Unit :=
  wakeOne (localQueue n g) (notifyMutexLocalWaiter n g) (ubMaxCapacity * 2)

/-- `MutexLock::notify_waiter`, for the waiter in slot `i`: whether it succeeded. -/
def notifyWaiter (l : Location) (i : ℕ) : Call Bool := do
  let w ← loadAt (.shared .step) (sharedQueue.payload i)
  if w.location.nodeId = l.nodeId then
    let w ← loadAt (.shared .step) (sharedQueue.payload i)
    notifyLocalWaiter ⟨w.location.tid, l.nodeId⟩
  else
    let up ← load transportAt
    if !up then
      return false
    let w ← loadAt (.shared .step) (sharedQueue.payload i)
    mutexSendWithRetry ⟨l.nodeId, w.location.nodeId, w.location.tid, 0, .grant, .x⟩ 5

/-- `MutexLock::wake_one_waiter`. -/
def wakeOneWaiter (l : Location) : Call Unit :=
  wakeOne sharedQueue (notifyWaiter l) mutexWakeScanLimit

/-! ### The local level -/

/-- Two's-complement wrap-around of `int64_t`. -/
def i64 (z : ℤ) : ℤ := z.bmod 18446744073709551616

/-- `now() + std::chrono::milliseconds(timeout)`: the `uint64_t` becomes an `int64_t`, which is turned
    into nanoseconds and added. -/
def deadlineAfter (now : ℤ) (timeoutMs : ℕ) : ℤ := i64 (now + i64 (1000000 * i64 timeoutMs))

/-- `now() <= deadline`. -/
def inTime (e : Label) (deadline : ℤ) : Call Bool := do
  let now ← loadAt e clockAt
  return now ≤ deadline

/-- `try_claim_mutex_local`. -/
def tryClaimMutexLocal (l : Location) (g : ℕ) (isAwakened : Bool) (slot : ℕ) : Call Bool := do
  let (ok, _) ← casWeakAt (.claim l) (Local.owner l.nodeId g) lockInvalidOwner (makeGlobalOwner l)
  if !ok then
    return false
  if isAwakened then
    (localQueue l.nodeId g).popHead slot
  return true

/-- `MutexLocalSpinResult`. -/
inductive SpinResult where | acquired | needWait | timeout
  deriving DecidableEq, Repr

/-- The loop of a woken thread in `spin_try_mutex_local`. -/
def spinAwakened (l : Location) (g : ℕ) (deadline : ℤ) (slot : ℕ) : Call SpinResult :=
  loop (fun _ => do
    let now ← inTime .step deadline
    if now then
      let ok ← tryClaimMutexLocal l g true slot
      return if ok then .inr .acquired else .inl ()
    (localQueue l.nodeId g).cleanTimeout slot
    return .inr .timeout) ()

/-- The loop of a thread that has not waited yet in `spin_try_mutex_local`. -/
def spinFresh (l : Location) (g : ℕ) (slot : ℕ) : Call SpinResult :=
  loop (fun i => do
    if i ≥ spinWaitRounds then
      return .inr .needWait
    let waiting ← loadAt (.localQ l.nodeId g .step) (localQueue l.nodeId g).count
    if waiting > 0 then
      return .inr .needWait
    let ok ← tryClaimMutexLocal l g false slot
    return if ok then .inr .acquired else .inl (i + 1)) 0

/-- `spin_try_mutex_local`. -/
def spinTryMutexLocal (l : Location) (g : ℕ) (deadline : ℤ) (isAwakened : Bool) (slot : ℕ) :
    Call SpinResult :=
  if isAwakened then spinAwakened l g deadline slot else spinFresh l g slot

/-- The hand-off of a freshly queued thread that finds the lock free, else its sleep: whether it has
    been handed the lock. -/
def awaitHandoff {π : Type} (q : QueueRef Mem Label π) (owner : Place Mem ℕ) (l : Location)
    (deadline : ℤ) (slot : ℕ) : Call Bool := do
  let holder ← load owner
  let selfHandoff ← (if holder = lockInvalidOwner then q.trySelfHandoffIfHead slot else pure false)
  if selfHandoff then
    return true
  waitNotified l deadline

/-- `wait_mutex_local_handoff` and `wait_global_handoff`: queue up and wait. -/
def waitHandoff {π : Type} (q : QueueRef Mem Label π) (owner : Place Mem ℕ) (entry : π) (l : Location)
    (deadline : ℤ) : Call (Result × ℕ) := do
  registerWaiter l
  let (res, slot) ← q.enqueue entry
  if res ≠ .success then
    unregisterWaiter l
    return (res, slot)
  let handed ← awaitHandoff q owner l deadline slot
  if handed then
    unregisterWaiter l
    return (.success, slot)
  q.cleanTimeout slot
  unregisterWaiter l
  return (.timeout, slot)

/-- `wait_mutex_local_handoff`. -/
def waitMutexLocalHandoff (l : Location) (g : ℕ) (deadline : ℤ) : Call (Result × ℕ) :=
  waitHandoff (localQueue l.nodeId g) (Local.owner l.nodeId g) ⟨.x, l.tid⟩ l deadline

/-- The loop body of `lock_mutex_local`. -/
def lockLocalRound (l : Location) (g : ℕ) (deadline : ℤ) (slot : ℕ) (isAwakened : Bool) :
    Call ((ℕ × Bool) ⊕ Result) := do
  let now ← inTime (.deadlineTest isAwakened) deadline
  if !now then
    return .inr .timeout
  match ← spinTryMutexLocal l g deadline isAwakened slot with
  | .acquired => return .inr .success
  | .timeout => return .inr .timeout
  | .needWait =>
    let (res, slot) ← waitMutexLocalHandoff l g deadline
    return if res ≠ .success then .inr res else .inl (slot, true)

/-- `lock_mutex_local`. -/
def lockMutexLocal (l : Location) (g : ℕ) (deadline : ℤ) : Call Result :=
  loop (fun v => lockLocalRound l g deadline v.1 v.2) (0, false)

/-- `unlock_mutex_local`. -/
def unlockMutexLocal (l : Location) (g : ℕ) : Call Unit := do
  let owner ← load (Local.owner l.nodeId g)
  if owner = makeGlobalOwner l then
    storeAt (.unclaim l) (Local.owner l.nodeId g) lockInvalidOwner
    let waiting ← loadAt (.localQ l.nodeId g .step) (localQueue l.nodeId g).count
    if waiting > 0 then
      wakeOneMutexLocalWaiter l.nodeId g

/-! ### The global level -/

/-- `MutexLock::try_lock_fast`. -/
def tryLockFast (l : Location) (isAwakened : Bool) (slot : ℕ) : Call Bool := do
  let waiting ← loadAt (.shared .step) sharedQueue.count
  if waiting > 0 ∧ !isAwakened then
    return false
  let (ok, _) ← casWeakAt (.claimGlobal l) Shm.lockOwner lockInvalidOwner (makeGlobalOwner l)
  if !ok then
    return false
  if isAwakened then
    sharedQueue.popHead slot
  return true

/-- `MutexLock::check_recursive_global_owner`. -/
def checkRecursiveGlobalOwner (l : Location) (isAwakened : Bool) : Call Result := do
  let owner ← loadAt (.recursionTest isAwakened) Shm.lockOwner
  return if owner = makeGlobalOwner l then .error else .success

/-- `MutexLock::wait_global_handoff`. -/
def waitGlobalHandoff (l : Location) (deadline : ℤ) : Call (Result × ℕ) :=
  waitHandoff sharedQueue Shm.lockOwner ⟨.x, l⟩ l deadline

/-- The variables of the loop of `acquire_global`. -/
structure Progress where
  waitRound : ℕ
  slot : ℕ
  isAwakened : Bool

/-- The loop body of `acquire_global`. -/
def acquireRound (l : Location) (deadline : ℤ) (v : Progress) : Call (Progress ⊕ Result) := do
  let now ← inTime (.deadlineTest v.isAwakened) deadline
  if !now then
    if v.isAwakened then
      sharedQueue.cleanTimeout v.slot
    return .inr .timeout
  let ok ← tryLockFast l v.isAwakened v.slot
  if ok then
    return .inr .success
  let check ← checkRecursiveGlobalOwner l v.isAwakened
  if check ≠ .success then
    return .inr .error
  if v.isAwakened then
    return .inl v
  if u32 (v.waitRound + 1) % mutexYieldInterval = 0 then
    let (res, slot) ← waitGlobalHandoff l deadline
    return if res ≠ .success then .inr res else .inl ⟨u32 (v.waitRound + 1), slot, true⟩
  return .inl ⟨u32 (v.waitRound + 1), v.slot, false⟩

/-- `MutexLock::acquire_global`. -/
def acquireGlobal (l : Location) (deadline : ℤ) : Call Result := do
  let check ← checkRecursiveGlobalOwner l false
  if check ≠ .success then
    return .error
  loop (acquireRound l deadline) ⟨0, 0, false⟩

/-! ### The calls -/

/-- `ring_queue_init` of the slots in a list. -/
def clearSlots {π : Type} (q : QueueRef Mem Label π) : List ℕ → Call Unit
  | [] => return ()
  | i :: is => do
    storeAt (q.lab .step) (q.seq i) .empty
    storeAt (q.lab .step) (q.payload i) q.reset
    clearSlots q is

/-- `MutexLock::create_wait_queue`. -/
def createWaitQueue : Call Unit := do
  storeAt (.shared .step) sharedQueue.head 0
  storeAt (.shared .step) sharedQueue.tail 0
  storeAt (.shared .step) sharedQueue.count 0
  clearSlots sharedQueue (List.range ubMaxNodes)

/-- `wait_mutex_ready`. -/
def waitMutexReady : Call Bool :=
  loop (fun i => do
    let state ← load Shm.isInited
    if i < mutexInitWaitRounds then
      return if state = mutexReady then .inr true else .inl (i + 1)
    return .inr (state = mutexReady)) 0

/-- The part of `lock_create` in shared memory: whether the object is ready. -/
def initShared : Call Bool := do
  let state ← load Shm.isInited
  if state = mutexReady then
    return true
  let (ok, expected) ← (if state = mutexInitEmpty ∨ state < mutexInitEmpty ∨ state > mutexReady then
    cas Shm.isInited state mutexIniting else pure (false, state))
  if ok then
    store Shm.lockOwner lockInvalidOwner
    createWaitQueue
    store Shm.isInited mutexReady
    return true
  if expected = mutexReady then
    return true
  waitMutexReady

/-- `MutexLock::lock_create`. -/
def lockCreate (n : NodeId) : Call Unit := do
  let ready ← initShared
  if ready then
    let found ← lookupMutexLocalLock n
    if found = none then
      registerMutexLocalLock n

/-- `MutexLock::lock_free`. -/
def lockFree (n : NodeId) : Call Unit := do
  let ll ← unregisterMutexLocalLockIfIdle n
  if ll = none then
    let _ ← lookupMutexLocalLock n

/-- The checks at the beginning of `lock` and `unlock`: the node and `is_ready`. -/
def usable (l : Location) : Call Bool := do
  if l.nodeId.val ≥ ubMaxNodes then
    return false
  let state ← load Shm.isInited
  return state = mutexReady

/-- `MutexLock::lock`. -/
def lock (timeoutMs : ℕ) (l : Location) : Call Result := do
  let ok ← usable l
  if !ok then
    return .error
  let owner ← load Shm.lockOwner
  if owner = makeGlobalOwner l then
    return .error
  match ← acquireMutexLocalLock l with
  | none => return .error
  | some g =>
    let now ← load clockAt
    let deadline := deadlineAfter now (if timeoutMs = 0 then defaultMutexTimeoutMs else timeoutMs)
    let owner ← load (Local.owner l.nodeId g)
    if owner = makeGlobalOwner l then
      releaseMutexLocalLock l g
      return .error
    let localRes ← lockMutexLocal l g deadline
    if localRes ≠ .success then
      releaseMutexLocalLock l g
      return localRes
    let res ← acquireGlobal l deadline
    if res = .success then
      releaseMutexLocalLock l g
      return .success
    unlockMutexLocal l g
    releaseMutexLocalLock l g
    return res

/-- `MutexLock::unlock`. -/
def unlock (l : Location) : Call Result := do
  let ok ← usable l
  if !ok then
    return .error
  let owner ← load Shm.lockOwner
  if owner ≠ makeGlobalOwner l then
    return .error
  match ← acquireMutexLocalLock l with
  | none => return .error
  | some g =>
    let owner ← load (Local.owner l.nodeId g)
    if owner ≠ makeGlobalOwner l then
      releaseMutexLocalLock l g
      return .error
    let (ok, _) ← casAt (.unclaimGlobal l) Shm.lockOwner (makeGlobalOwner l) lockInvalidOwner
    if !ok then
      releaseMutexLocalLock l g
      return .error
    let waiting ← loadAt (.shared .step) sharedQueue.count
    if waiting > 0 then
      wakeOneWaiter l
    unlockMutexLocal l g
    releaseMutexLocalLock l g
    return .success

/-! ### Freshly created -/

/-- A mutex that every node has created and nobody has used. -/
def Mem.init (answers : ℕ → Sent) : Mem where
  shm := ⟨lockInvalidOwner, .init .reset, mutexReady⟩
  locals := fun _ _ => .init
  registry := fun n => if n.val < ubMaxNodes then some 0 else none
  made := fun n => if n.val < ubMaxNodes then 1 else 0
  removing := fun _ => false
  waiters := fun _ _ => none
  net := []
  transport := true
  answers := answers
  clock := 0

/-! ### Threads that use it -/

/-- The threads of all nodes, time, and wake-ups that come from nowhere. -/
inductive Actor where
  | thread (l : Location)
  | time
  | stray
  deriving DecidableEq

inductive Op where
  | create
  | free
  | lock (timeoutMs : ℕ)
  | unlock
  | tick
  | wake (l : Location)
  deriving DecidableEq

/-- What a thread has: nothing, the mutex, or the mutex while it unlocks it. -/
inductive Hold where | idle | holding | unlocking
  deriving DecidableEq

/-- Time goes on, as far as it likes. -/
def tick : Call Unit := .act .step (fun s c => some ({ s with clock := s.clock + c }, ())) .ret

/-- A call; those that return nothing give `none`. -/
def callCode : Actor → Op → Call (Option Result)
  | .thread l, .create => do
    lockCreate l.nodeId
    return none
  | .thread l, .free => do
    lockFree l.nodeId
    return none
  | .thread l, .lock timeoutMs => do
    let r ← lock timeoutMs l
    return some r
  | .thread l, .unlock => do
    let r ← unlock l
    return some r
  | .time, .tick => do
    tick
    return none
  | .stray, .wake l => do
    let _ ← notifyLocalWaiter l
    return none
  | _, _ => return none

/-- Which calls are whose. -/
def mayCall : Actor → Op → Bool
  | .thread _, .tick => false
  | .thread _, .wake _ => false
  | .thread _, _ => true
  | .time, op => op = .tick
  | .stray, .wake _ => true
  | .stray, _ => false

/-- Threads that have the mutex do not lock it again, those that have it not do not unlock it. -/
def inOrder : Hold → Op → Bool
  | h, .lock _ => h = .idle
  | h, .unlock => h = .holding
  | _, _ => true

def Hold.start (h : Hold) : Op → Hold
  | .unlock => .unlocking
  | _ => h

def Hold.finish (h : Hold) : Op → Option Result → Hold
  | .lock _, r => if r = some .success then .holding else .idle
  | .unlock, _ => .idle
  | _, _ => h

abbrev MutexClient := Client Actor Mem Label Op (Option Result) Hold

abbrev MutexConfig := Config Actor Mem Label Op (Option Result) Hold

def mutexClient : MutexClient where
  code := callCode
  allowed a h op := mayCall a op && inOrder h op
  start := Hold.start
  finish := Hold.finish

def MutexConfig.init (s : Mem) : MutexConfig := ⟨s, fun _ => .idle, fun _ => none⟩

end Mutex

end UbsAtomic
