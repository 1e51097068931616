import Mathlib.Logic.Function.Basic
import UbsAtomic.Conc.Machine

/-! The worker pool of the dispatcher (`ThreadPool.h`).

        enqueue ──push──▶ taskQueue_ ──pop──▶ worker ──▶ run
           │                                    │
           └─ throws once shuttingDown_         └─ shuttingDown_: drain the queue, leave

    The queue is touched under `mtx_` only. A worker that finds nothing to do tests the wait
    predicate, and releases the mutex and blocks in one step. The destructor stores `shuttingDown_`
    without the mutex, wakes everybody and joins. `executed` and `notifiedAll` are never read by
    the code; a task is named by the number of tasks made before it. -/

namespace UbsAtomic

open Conc Conc.Prog

namespace Pool

inductive Party where
  | worker (i : ℕ)
  | caller (i : ℕ)
  | destructor
  deriving DecidableEq

/-- `blocked i` is `some` while worker `i` waits on `taskAvailable_`, with whether it has been
    notified; `left i` says that its thread has ended. -/
structure Mem where
  threadCount : ℕ
  taskQueue : List ℕ
  mtx : Option Party
  shuttingDown : Bool
  blocked : ℕ → Option Bool
  left : ℕ → Bool
  created : ℕ
  executed : List ℕ
  notifiedAll : Bool

/-- The steps other modules speak about: the second half of the wait predicate, blocking, and the
    notifications. -/
inductive Label where | step | testQueue | block | notifyOne | notifyAll | join (i : ℕ)
  deriving DecidableEq

instance : Inhabited Label := ⟨.step⟩

abbrev Call := Prog Mem Label

/-! ### Where the variables are -/

def threadCount : Place Mem ℕ := ⟨(·.threadCount), fun v s => { s with threadCount := v }⟩

def taskQueue : Place Mem (List ℕ) := ⟨(·.taskQueue), fun v s => { s with taskQueue := v }⟩

def shuttingDown : Place Mem Bool := ⟨(·.shuttingDown), fun v s => { s with shuttingDown := v }⟩

def created : Place Mem ℕ := ⟨(·.created), fun v s => { s with created := v }⟩

/-! ### Mutex, condition variable, tasks -/

def lockMtx (p : Party) : Call Unit :=
  .act .step (fun s _ => if s.mtx = none then some ({ s with mtx := some p }, ()) else none) .ret

def unlockMtx : Call Unit := .act .step (fun s _ => some ({ s with mtx := none }, ())) .ret

/-- The first half of `taskAvailable_.wait`: release the mutex and block. -/
def block (i : ℕ) : Call Unit :=
  .act .block (fun s _ =>
    some ({ s with mtx := none, blocked := Function.update s.blocked i (some false) }, ())) .ret

/-- The second half, up to the mutex: a notification, or (choice other than `0`) no reason. -/
def wakeUp (i : ℕ) : Call Unit :=
  .act .step (fun s c =>
    if s.blocked i = some true ∨ c ≠ 0 then
      some ({ s with blocked := Function.update s.blocked i none }, ())
    else none) .ret

/-- `notify_one`: the choice says which of the blocked workers. -/
def notifyOne : Call Unit :=
  .act .notifyOne (fun s c =>
    if s.blocked c = some false then
      some ({ s with blocked := Function.update s.blocked c (some true) }, ())
    else if ∃ i ∈ List.range s.threadCount, s.blocked i = some false then none
    else some (s, ())) .ret

/-- `notify_all`. -/
def notifyAll : Call Unit :=
  .act .notifyAll (fun s _ =>
    some ({ s with blocked := fun i => (s.blocked i).map fun _ => true, notifiedAll := true }, ())) .ret

/-- `task()`. -/
def runTask (task : ℕ) : Call Unit :=
  .act .step (fun s _ => some ({ s with executed := task :: s.executed }, ())) .ret

/-- `front()` and `pop()`. -/
def popTask : Call ℕ := rmwAt .step taskQueue fun q => (q.tail, q.headD 0)

/-! ### The workers -/

/-- One round of the loop inside `wait`, with the predicate of `waitForTask`. -/
def waitRound (i : ℕ) : Call (Unit ⊕ Unit) := do
  let down ← load shuttingDown
  if down then
    return .inr ()
  let queue ← loadAt .testQueue taskQueue
  if queue ≠ [] then
    return .inr ()
  block i
  wakeUp i
  lockMtx (.worker i)
  return .inl ()

/-- `waitForTask`. -/
def waitForTask (i : ℕ) : Call Bool := do
  loop (fun _ => waitRound i) ()
  let queue ← load taskQueue
  return queue ≠ []

/-- `tryDequeueTask`. -/
def tryDequeueTask (i : ℕ) : Call (Option ℕ) := do
  lockMtx (.worker i)
  let queue ← load taskQueue
  let ready ← (if queue = [] then waitForTask i else pure true)
  if ready then
    let task ← popTask
    unlockMtx
    return some task
  else
    unlockMtx
    return none

def drainRound (i : ℕ) : Call (Unit ⊕ Unit) := do
  let queue ← load taskQueue
  if queue = [] then
    unlockMtx
    return .inr ()
  let task ← popTask
  unlockMtx
  runTask task
  lockMtx (.worker i)
  return .inl ()

/-- `executeDrainPhase`. -/
def executeDrainPhase (i : ℕ) : Call Unit := do
  lockMtx (.worker i)
  loop (fun _ => drainRound i) ()

def workerRound (i : ℕ) : Call (Unit ⊕ Unit) := do
  let down ← load shuttingDown
  if down then
    return .inr ()
  match ← tryDequeueTask i with
  | none => return .inr ()
  | some task =>
    runTask task
    return .inl ()

/-- The worker's thread has ended. -/
def endThread (i : ℕ) : Call Unit :=
  .act .step (fun s _ => some ({ s with left := Function.update s.left i true }, ())) .ret

/-- `runWorkerLoop`, and the end of the thread. -/
def runWorkerLoop (i : ℕ) : Call Unit := do
  loop (fun _ => workerRound i) ()
  executeDrainPhase i
  endThread i

/-! ### The others -/

/-- What a call came to; an `enqueue` names the task it was given. -/
inductive Outcome where
  | done
  | returned (task : ℕ)
  | threw (task : ℕ)
  deriving DecidableEq

/-- `enqueue`. -/
def enqueue (p : Party) : Call Outcome := do
  let task ← fetch created (· + 1)
  lockMtx p
  let down ← load shuttingDown
  if down then
    unlockMtx
    return .threw task
  let count ← load threadCount
  if count = 0 then
    unlockMtx
    return .threw task
  let _ ← fetch taskQueue (· ++ [task])
  unlockMtx
  notifyOne
  return .returned task

/-- `t.join()` for the workers of the list. -/
def joinAll : List ℕ → Call Unit
  | [] => return ()
  | i :: is => do
    .act (.join i) (fun s _ => if s.left i then some (s, ()) else none) .ret
    joinAll is

/-- `~ThreadPool`, with `n` worker threads. -/
def destroy (n : ℕ) : Call Unit := do
  store shuttingDown true
  notifyAll
  joinAll (List.range n)

/-! ### The parties -/

inductive Op where | run | enqueue | destroy
  deriving DecidableEq

/-- What a party has behind it: whether its thread or the destructor has begun, and the tasks whose
    `enqueue` returned or threw. -/
structure Past where
  begun : Bool
  returned : List ℕ
  threw : List ℕ
  deriving DecidableEq

/-- `n` workers that run their loop once, callers that enqueue at any time, and a destructor that
    starts at any time. -/
def client (n : ℕ) : Client Party Mem Label Op Outcome Past where
  code
    | .worker i, .run => do
      runWorkerLoop i
      return .done
    | .destructor, .destroy => do
      destroy n
      return .done
    | p, .enqueue => enqueue p
    | _, _ => return .done
  allowed
    | .worker i, h, .run => i < n && !h.begun
    | .caller _, _, .enqueue => true
    | .destructor, h, .destroy => !h.begun
    | _, _, _ => false
  start
    | h, .enqueue => h
    | h, _ => { h with begun := true }
  finish
    | h, _, .returned task => { h with returned := task :: h.returned }
    | h, _, .threw task => { h with threw := task :: h.threw }
    | h, _, .done => h

abbrev PoolConfig := Config Party Mem Label Op Outcome Past

/-- A pool that has just been constructed with `n` workers. -/
def PoolConfig.init (n : ℕ) : PoolConfig where
  mem := ⟨n, [], none, false, fun _ => none, fun _ => false, 0, [], false⟩
  held := fun _ => ⟨false, [], []⟩
  pc := fun _ => none

end Pool

end UbsAtomic
