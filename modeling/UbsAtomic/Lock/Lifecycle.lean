import UbsAtomic.Lock.RingQueue

/-! Creating, freeing and rebuilding the shared lock object (`ub_distribute_lock.cpp`).

    `is_inited` counts references while it is not negative; `-1` and `-2` mark an initialisation by
    `rebuild` and by `lock_create`.

              CAS 0 → -2              store 1
        0  ──────────────▶  create  ──────────▶  1, 2, …   lock_create: + 1   lock_free: - 1
        │     CAS 0 → -1              store n     ▲
        └────────────────▶  rebuild ──────────────┘

    Next to the memory stands what the calls mean: who is inside an initialisation, whose reference
    is counted, and which fields have been written since the last initialisation began. No call
    reads that part. -/

namespace UbsAtomic

open Conc Conc.Prog

namespace Lifecycle

/-- The fields that an initialiser writes. -/
inductive Field where
  | lockWord
  | sharedOwnerBitmap
  | xRecursive
  | sxRecursive
  | reserveLockOwner
  | lockOwnerX
  | lockOwnerSx
  | queueHead
  | queueTail
  | waitingCount
  | slotSeq (i : ℕ)
  | slotPayload (i : ℕ)
  | nodeRegistry (n : NodeId)
  deriving DecidableEq

/-- The shared object, the local locks bound in every node's registry to the lock that is rebuilt
    from (`oldBound`) and to this one (`newBound`), and what the calls mean: the parties inside an
    initialisation, the parties in `lock_create` or `lock_free` whose reference is counted, the
    nodes counted by a rebuild that have not come yet, the nodes that have a reference, the fields
    that the last initialiser has written, and whether it has made its last store to them. -/
structure Site where
  shm : UbRwLock
  oldBound : NodeId → Bool
  newBound : NodeId → Bool
  inside : List Location
  entering : List Location
  leaving : List Location
  granted : List NodeId
  refs : List NodeId
  written : List Field
  ready : Bool

instance : HasShm Site := ⟨⟨(·.shm), fun v s => { s with shm := v }⟩⟩

@[simp] theorem shm_set (v : UbRwLock) (s : Site) : HasShm.shm.set v s = { s with shm := v } := rfl

/-- The steps that are spoken about: a store of an initialiser, a binding or registry store of a
    creator or initialiser (`register`) and of a rebuild that found the lock ready (`follow`), and
    the begin of `lock_free`. -/
inductive Label where
  | step
  | init
  | register (n : NodeId)
  | follow (n : NodeId)
  | free (n : NodeId)
  deriving DecidableEq

instance : Inhabited Label := ⟨.step⟩

abbrev Call := Prog Site Label

/-! ### Where the variables are -/

open Shm

/-- The wait queue of the object. -/
def queue : QueueRef Site Label UbWaiter where
  cap := ubMaxNodes
  ref := shmField (·.queue) fun v l => { l with queue := v }
  reset := .reset
  modeOf := (·.mode)
  lab := fun _ => .init

abbrev Field.Val : Field → Type
  | .lockWord => ℤ
  | .sharedOwnerBitmap => BitVec 32
  | .slotSeq _ => WaitState
  | .slotPayload _ => UbWaiter
  | _ => ℕ

def Field.place : (f : Field) → Place Site f.Val
  | .lockWord => Shm.lockWord
  | .sharedOwnerBitmap => Shm.sharedOwnerBitmap
  | .xRecursive => Shm.xRecursive
  | .sxRecursive => Shm.sxRecursive
  | .reserveLockOwner => Shm.reserveLockOwner
  | .lockOwnerX => Shm.lockOwnerX
  | .lockOwnerSx => Shm.lockOwnerSx
  | .queueHead => queue.head
  | .queueTail => queue.tail
  | .waitingCount => queue.count
  | .slotSeq i => queue.seq i
  | .slotPayload i => queue.payload i
  | .nodeRegistry n => Shm.nodeRegistry n

/-- The field, with a note of every store. -/
def Field.noted (f : Field) : Place Site f.Val where
  get := f.place.get
  set v s := { f.place.set v s with written := f :: s.written }

def oldBoundAt (n : NodeId) : Place Site Bool where
  get s := s.oldBound n
  set v s := { s with oldBound := Function.update s.oldBound n v }

def newBoundAt (n : NodeId) : Place Site Bool where
  get s := s.newBound n
  set v s := { s with newBound := Function.update s.newBound n v }

/-! ### Initialising the fields -/

/-- A store of an initialiser. -/
def put (f : Field) (v : f.Val) : Call Unit := storeAt .init f.noted v

/-- `node_registry[i] = 0` for the nodes of the list. -/
def clearNodeRegistry : List NodeId → Call Unit
  | [] => return ()
  | n :: ns => do
    put (.nodeRegistry n) 0
    clearNodeRegistry ns

/-- `UB_WAIT_EMPTY` and a payload, for the slots of the list. -/
def clearSlots (payload : UbWaiter) : List ℕ → Call Unit
  | [] => return ()
  | i :: is => do
    put (.slotSeq i) .empty
    put (.slotPayload i) payload
    clearSlots payload is

/-- The nodes `0 … UB_MAX_NODES - 1`. -/
def allNodes : List NodeId := (List.range ubMaxNodes).map (Fin.ofNat 256)

/-- `create_wait_queue`. -/
def createWaitQueue : Call Unit := do
  put .queueHead 0
  put .queueTail 0
  put .waitingCount 0
  clearSlots ⟨.i, ⟨0, 255⟩⟩ (List.range ubMaxNodes)

/-- The fields as `lock_create` writes them. -/
def initFields : Call Unit := do
  put .lockWord xLockDecr
  put .sharedOwnerBitmap 0
  put .xRecursive 0
  put .sxRecursive 0
  put .reserveLockOwner lockInvalidOwner
  put .lockOwnerX lockInvalidOwner
  put .lockOwnerSx lockInvalidOwner
  createWaitQueue
  clearNodeRegistry allNodes

/-- `reset_shared_lock_for_rebuild`; its location `{0xFF, 0}` is a thread id and a node. -/
def resetSharedLockForRebuild : Call Unit := do
  put .lockWord xLockDecr
  put .waitingCount 0
  put .queueHead 0
  put .queueTail 0
  put .sharedOwnerBitmap 0
  put .lockOwnerX lockInvalidOwner
  put .lockOwnerSx lockInvalidOwner
  put .reserveLockOwner lockInvalidOwner
  put .sxRecursive 0
  put .xRecursive 0
  clearSlots ⟨.i, ⟨255, 0⟩⟩ (List.range ubMaxNodes)

/-! ### lock_create and lock_free -/

def rebuildInitInProgress : ℤ := -1
def createInitInProgress : ℤ := -2
def createInitWaitRounds : ℕ := 1048576
def int32Max : ℤ := 2147483647

/-- `l` begins an initialisation, marked by `v`. -/
def Site.enter (s : Site) (l : Location) (v : ℤ) : Site :=
  { isInited.set v s with inside := l :: s.inside, written := [], ready := false }

/-- The compare-and-swap of `lock_create`: it begins an initialisation or counts a reference. -/
def beginCreate (l : Location) (state : ℤ) : Call (Bool × ℤ) :=
  .act .step (fun s c =>
    if s.shm.isInited = state ∧ c = 0 then
      if state = 0 then
        some (s.enter l createInitInProgress, (true, state))
      else
        some ({ isInited.set (state + 1) s with entering := l :: s.entering }, (true, state))
    else some (s, (false, s.shm.isInited))) .ret

/-- One round of the loop of `lock_create`; the result says whether to initialise. -/
def createRound (l : Location) (st : ℕ × ℤ) : Call (ℕ × ℤ ⊕ Option Bool) := do
  if st.2 = createInitInProgress then
    if st.1 + 1 ≥ createInitWaitRounds then
      return .inr none
    let state ← load isInited
    return .inl (st.1 + 1, state)
  if st.2 < 0 ∨ st.2 = int32Max then
    return .inr none
  let begun ← beginCreate l st.2
  if begun.1 then
    return .inr (some (decide (st.2 = 0)))
  return .inl (st.1, begun.2)

/-- `is_inited.store(1)`: the first reference. -/
def publishCreate (l : Location) : Call Unit :=
  .act .init (fun s _ => some ({ isInited.set 1 s with
    inside := s.inside.erase l, entering := l :: s.entering, ready := true }, ())) .ret

/-- The last store of `lock_create`: the node has its reference. -/
def enterRegistry (l : Location) : Call Unit :=
  .act (.register l.nodeId) (fun s _ => some ({ (nodeRegistry l.nodeId).set ubLockAddr s with
    entering := s.entering.erase l, refs := l.nodeId :: s.refs }, ())) .ret

/-- `lock_create`. -/
def lockCreate (l : Location) : Call Unit := do
  if l.nodeId.val ≥ ubMaxNodes then
    return ()
  let state ← load isInited
  let begun ← loop (createRound l) (0, state)
  match begun with
  | none => return ()
  | some first =>
    let _ ← (if first then do
      initFields
      publishCreate l
    else pure ())
    let bound ← load (newBoundAt l.nodeId)
    if bound = false then
      storeAt (.register l.nodeId) (newBoundAt l.nodeId) true
    enterRegistry l

/-- The load at the begin of `lock_free`: one reference of the node is being given back. -/
def beginFree (l : Location) : Call ℤ :=
  .act (.free l.nodeId) (fun s _ =>
    if l.nodeId ∈ s.refs then
      some ({ s with refs := s.refs.erase l.nodeId, leaving := l :: s.leaving }, s.shm.isInited)
    else some (s, s.shm.isInited)) .ret

/-- The compare-and-swap of `lock_free`. -/
def dropReference (l : Location) (cur : ℤ) : Call (Bool × ℤ) :=
  .act .step (fun s c =>
    if s.shm.isInited = cur ∧ c = 0 then
      some ({ isInited.set (cur - 1) s with leaving := s.leaving.erase l }, (true, cur))
    else some (s, (false, s.shm.isInited))) .ret

/-- `lock_free`. -/
def lockFree (l : Location) : Call Unit := do
  if l.nodeId.val ≥ ubMaxNodes then
    return ()
  let cur ← beginFree l
  if cur < 0 then
    return ()
  store (nodeRegistry l.nodeId) 0
  store (newBoundAt l.nodeId) false
  loop (fun cur => do
    if cur > 0 then
      let dropped ← dropReference l cur
      if dropped.1 then
        return .inr ()
      return .inl dropped.2
    return .inr ()) cur

/-! ### rebuild -/

/-- `ub_lock_query_result_t`. -/
structure QueryResult where
  nodeId : NodeId
  heldMode : Mode
  holderTid : Tid
  recursiveCount : ℕ
  hasSharedRef : Bool
  reserveMode : Mode
  deriving DecidableEq

/-- `is_valid_rebuild_mode`. -/
def isValidRebuildMode (m : Mode) : Bool := m = .i || m = .s || m = .sx || m = .x

/-- `is_valid_query_result_entry`. -/
def isValidQueryResultEntry (e : QueryResult) : Bool :=
  match e.heldMode with
  | .i => e.holderTid = 0 && e.recursiveCount = 0 && !e.hasSharedRef
  | .s => e.holderTid = 0 && e.recursiveCount = 0 && e.hasSharedRef
  | .x => e.holderTid ≠ 0 && e.recursiveCount > 0 && !e.hasSharedRef
  | .sx => e.holderTid ≠ 0 && e.recursiveCount > 0

/-- What the loop over the query results collects. -/
structure Scan where
  xHolder : Option QueryResult
  sxHolder : Option QueryResult
  reserveEntry : Option QueryResult
  sharedBitmap : BitVec 32
  sharedCount : ℕ
  seenNodes : List NodeId

def Scan.init : Scan := ⟨none, none, none, 0, 0, []⟩

/-- The delayed-release part of the loop body: the entry with the token. -/
def scanReserve (st : Scan) (e : QueryResult) : Option (Option QueryResult) :=
  if e.reserveMode ≠ .i then
    if (e.heldMode ≠ .i ∧ ¬ (e.heldMode = .s ∧ e.hasSharedRef = true)) ∨ st.reserveEntry.isSome then
      none
    else some (some e)
  else some st.reserveEntry

/-- The body of the loop over the query results; `none` is `UB_LOCK_ERROR`. -/
def scanEntry (st : Scan) (e : QueryResult) : Option Scan :=
  if e.nodeId.val ≥ ubMaxNodes ∨ e.nodeId ∈ st.seenNodes ∨ isValidRebuildMode e.heldMode = false
      ∨ isValidRebuildMode e.reserveMode = false ∨ isValidQueryResultEntry e = false then
    none
  else
    (scanReserve st e).bind fun reserveEntry =>
      let st := { st with
        reserveEntry := reserveEntry
        seenNodes := e.nodeId :: st.seenNodes
        sharedBitmap := if e.hasSharedRef then st.sharedBitmap ||| (1#32 <<< e.nodeId.val)
          else st.sharedBitmap
        sharedCount := if e.hasSharedRef then st.sharedCount + 1 else st.sharedCount }
      match e.heldMode with
      | .i | .s => some st
      | .x =>
        if st.xHolder.isSome ∨ st.sxHolder.isSome ∨ st.sharedCount > 0 then none
        else some { st with xHolder := some e }
      | .sx =>
        if st.sxHolder.isSome ∨ st.xHolder.isSome then none
        else some { st with sxHolder := some e }

/-- `is_valid_delayed_release_rebuild_state`. -/
def isValidDelayedReleaseRebuildState (st : Scan) : Bool :=
  match st.reserveEntry with
  | none => true
  | some e =>
    match e.reserveMode with
    | .x => st.xHolder.isNone && st.sxHolder.isNone && st.sharedCount = 0
    | .sx => st.xHolder.isNone && st.sxHolder.isNone
    | .s => st.xHolder.isNone
    | .i => false

/-- All that `rebuild` checks of its arguments. -/
def validate (n : NodeId) (results : List QueryResult) : Option Scan :=
  if n.val ≥ ubMaxNodes ∨ results.length = 0 ∨ results.length > ubMaxNodes then none
  else if (results.find? fun e => e.nodeId = n).isNone then none
  else
    (results.foldlM scanEntry .init).bind fun st =>
      if st.xHolder.isSome ∧ (st.sxHolder.isSome ∨ st.sharedCount > 0) then none
      else if isValidDelayedReleaseRebuildState st = false then none
      else some st

/-- `try_begin_shared_rebuild_init`. -/
def tryBeginSharedRebuildInit (l : Location) : Call Bool :=
  .act .step (fun s _ =>
    if s.shm.isInited = 0 then
      some (s.enter l rebuildInitInProgress, true)
    else some (s, false)) .ret

/-- `wait_shared_rebuild_init_done`. -/
def waitSharedRebuildInitDone : Call Unit :=
  loop (fun _ => do
    let state ← load isInited
    return if state = rebuildInitInProgress then .inl () else .inr ()) ()

/-- The fields of the holder that was found. -/
def putHolder (st : Scan) : Call Unit :=
  match st.xHolder, st.sxHolder with
  | some x, _ => do
    put .lockWord 0
    put .lockOwnerX (makeGlobalOwner ⟨x.holderTid, x.nodeId⟩)
    put .xRecursive x.recursiveCount
  | none, some sx => do
    put .lockWord (xLockHalfDecr - st.sharedCount)
    put .lockOwnerSx (makeGlobalOwner ⟨sx.holderTid, sx.nodeId⟩)
    put .sxRecursive sx.recursiveCount
  | none, none =>
    if st.sharedCount > 0 then put .lockWord (xLockDecr - st.sharedCount) else return ()

/-- What the S token of node `n` adds to the readers. -/
def addShared (st : Scan) (n : NodeId) : BitVec 32 × ℕ :=
  if st.sharedBitmap &&& (1#32 <<< n.val) = 0 then
    (st.sharedBitmap ||| (1#32 <<< n.val), st.sharedCount + 1)
  else (st.sharedBitmap, st.sharedCount)

/-- `replay_delayed_release_state`; the result is the bitmap to be stored. -/
def replayDelayedReleaseState (st : Scan) : Call (BitVec 32) :=
  match st.reserveEntry with
  | none => return st.sharedBitmap
  | some e => do
    let owner := makeGlobalOwner ⟨0, e.nodeId⟩
    put .reserveLockOwner owner
    match e.reserveMode with
    | .x =>
      put .lockWord 0
      put .lockOwnerX owner
      put .xRecursive 1
      return st.sharedBitmap
    | .sx =>
      put .lockWord (xLockHalfDecr - st.sharedCount)
      put .lockOwnerSx owner
      put .sxRecursive 1
      return st.sharedBitmap
    | .s =>
      if st.sxHolder.isSome then
        put .lockWord (xLockHalfDecr - (addShared st e.nodeId).2)
      else
        put .lockWord (xLockDecr - (addShared st e.nodeId).2)
      return (addShared st e.nodeId).1
    | .i => return st.sharedBitmap

/-- The last field of a rebuild. -/
def putBitmap (b : BitVec 32) : Call Unit :=
  .act .init (fun s _ => some ({ Field.sharedOwnerBitmap.noted.set b s with ready := true }, ())) .ret

/-- The fields as the initialising `rebuild` writes them. -/
def rebuildFields (st : Scan) : Call Unit := do
  clearNodeRegistry allNodes
  resetSharedLockForRebuild
  putHolder st
  let b ← replayDelayedReleaseState st
  putBitmap b

/-- `switch_local_lock_binding`: whether the node has a local lock for the rebuilt object; `same`
    says that it is rebuilt in place. -/
def switchLocalLockBinding (e : Label) (n : NodeId) (same : Bool) : Call Bool :=
  .act e (fun s _ =>
    if same then some (s, s.newBound n)
    else if s.oldBound n then
      some ((newBoundAt n).set true ((oldBoundAt n).set false s), true)
    else some (s, s.newBound n)) .ret

/-- `lookup_local_lock(old_lock)`. -/
def lookupOld (n : NodeId) (same : Bool) : Call Bool :=
  if same then load (newBoundAt n) else load (oldBoundAt n)

/-- `is_inited.store(query_result_count)`: one reference for every node that was queried. -/
def publishRebuild (l : Location) (results : List QueryResult) : Call Unit :=
  .act .init (fun s _ => some ({ isInited.set results.length s with
    inside := s.inside.erase l
    refs := l.nodeId :: s.refs
    granted := (results.map (·.nodeId)).erase l.nodeId ++ s.granted }, ())) .ret

/-- `is_inited.store(0)` after a failed binding. -/
def abandonRebuild (l : Location) : Call Unit :=
  .act .init (fun s _ => some ({ isInited.set 0 s with inside := s.inside.erase l }, ())) .ret

/-- The registry store of a rebuild that found the lock ready; its node has come. -/
def followRegistry (n : NodeId) : Call Unit :=
  .act (.follow n) (fun s _ =>
    let s := (nodeRegistry n).set ubLockAddr s
    some (if n ∈ s.granted then { s with granted := s.granted.erase n, refs := n :: s.refs } else s,
      ())) .ret

/-- `rebuild` by the party that initialises. -/
def rebuildInit (l : Location) (same : Bool) (results : List QueryResult) (st : Scan) :
    Call Result := do
  rebuildFields st
  let bound ← switchLocalLockBinding (.register l.nodeId) l.nodeId same
  if bound = false then
    abandonRebuild l
    return .error
  storeAt (.register l.nodeId) (nodeRegistry l.nodeId) ubLockAddr
  publishRebuild l results
  return .success

/-- `rebuild` by a party that found the lock initialised. -/
def rebuildFollow (l : Location) (same : Bool) : Call Result := do
  waitSharedRebuildInitDone
  let state ← load isInited
  if state ≤ 0 then
    return .error
  let bound ← switchLocalLockBinding (.follow l.nodeId) l.nodeId same
  if bound = false then
    return .error
  followRegistry l.nodeId
  return .success

/-- `rebuild`. -/
def rebuild (l : Location) (same : Bool) (results : List QueryResult) : Call Result := do
  match validate l.nodeId results with
  | none => return .error
  | some st =>
    let old ← lookupOld l.nodeId same
    if old = false then
      return .error
    let doInit ← tryBeginSharedRebuildInit l
    if doInit then
      rebuildInit l same results st
    else
      rebuildFollow l same

/-- Memory that nobody has initialised. -/
def UbRwLock.zeroed : UbRwLock where
  lockWord := 0
  queue := ⟨0, 0, 0, fun _ => ⟨.empty, ⟨.s, ⟨0, 0⟩⟩⟩⟩
  lockOwnerX := 0
  lockOwnerSx := 0
  reserveLockOwner := 0
  sxRecursive := 0
  xRecursive := 0
  isInited := 0
  sharedOwnerBitmap := 0
  nodeRegistry := fun _ => 0

/-- A fresh object; the nodes have local locks for the lock it replaces. -/
def Site.init : Site where
  shm := UbRwLock.zeroed
  oldBound := fun _ => true
  newBound := fun _ => false
  inside := []
  entering := []
  leaving := []
  granted := []
  refs := []
  written := []
  ready := false

end Lifecycle

end UbsAtomic
