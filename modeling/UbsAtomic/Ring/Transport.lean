import UbsAtomic.Ring.RingBuffer

/-! Sending to another node, and shutting a node down (`UBShmTransport.cpp`).

        producer node                                consumer node
        ─────────────                                ─────────────
        send: shadow_head says there is room         deinit: fake a full ring, clear the billboard,
        on_peer_exit: forget the cache     ◀──────           send PEER_EXIT
                                                     init:   build the ring anew, publish it

    A producer keeps what it knows of the ring in a cache. The only thing that tells it of a
    restart is PEER_EXIT. `epoch`, `down` and `log` are never read by a call. -/

namespace UbsAtomic

open Conc Conc.Prog

namespace Ring

/-! ### Where the variables are -/

def lookupAt (n : ℕ) : Place Mem Bool := cacheField n (·.lookup) fun v c => { c with lookup := v }

def cacheInitializedAt (n : ℕ) : Place Mem Bool :=
  cacheField n (·.initialized) fun v c => { c with initialized := v }

def offsetAt : Place Mem Bool := ⟨(·.offset), fun v s => { s with offset := v }⟩

def initializedAt : Place Mem Bool := ⟨(·.initialized), fun v s => { s with initialized := v }⟩

def peerExitsAt (n : ℕ) : Place Mem ℕ :=
  ⟨fun s => s.peerExits n, fun v s => { s with peerExits := Function.update s.peerExits n v }⟩

/-! ### The lock of a producer's caches -/

/-- `shared_lock(cache_mutex_)` of thread `k` on node `n`. -/
def lockShared (n k : ℕ) : Call Unit :=
  .act .step (fun s _ =>
    if s.removing n then none
    else some ({ s with sharers := (n, k) :: s.sharers }, ())) .ret

def unlockShared (n k : ℕ) : Call Unit :=
  .act .step (fun s _ => some ({ s with sharers := s.sharers.erase (n, k) }, ())) .ret

/-- `unique_lock(cache_mutex_)` on node `n`. -/
def lockUnique (n : ℕ) : Call Unit :=
  .act .step (fun s _ =>
    if s.removing n ∨ ∃ p ∈ s.sharers, p.1 = n then none
    else some ({ s with removing := Function.update s.removing n true }, ())) .ret

def unlockUnique (n : ℕ) : Call Unit :=
  .act .step (fun s _ => some ({ s with removing := Function.update s.removing n false }, ())) .ret

/-- `shadow_head.store(0)`. -/
def resetShadowHead (n : ℕ) : Call Unit :=
  .act .step (fun s _ => some ({ s with
    caches := Function.update s.caches n { s.caches n with shadowHead := 0, epoch := s.epoch } }, ())) .ret

/-! ### A producer node -/

/-- `get_remote_ring`; the ring is at the same place in every incarnation. -/
def getRemoteRing (n : ℕ) : Call ℤ := do
  let known ← load (lookupAt n)
  if known then
    return ubCommOk
  let initialized ← load initializedAt
  if initialized = false then
    return ubCommErrPeerNotReady
  let offset ← load offsetAt
  if offset = false then
    return ubCommErrRingNotFound
  store (lookupAt n) true
  return ubCommOk

/-- `try_populate_cache`. -/
def tryPopulateCache (n : ℕ) : Call ℤ := do
  let ret ← getRemoteRing n
  if ret ≠ ubCommOk then
    return ret
  resetShadowHead n
  let threshold ← load thresholdAt
  storeAt (.copyThreshold n) (cachedThresholdAt n) threshold
  let version ← loadAt (.copyVersion n) thresholdVersionAt
  storeAt (.fillVersion n) (cachedThresholdVersionAt n) version
  store (cacheInitializedAt n) true
  return ubCommOk

variable (cf : Conf)

/-- The remote path of `send`, thread `k` of node `n`; whether the heartbeat of the destination was
    seen in time is a choice of the surroundings. -/
def send (n k : ℕ) (m : Message) : Call ℤ := do
  let alive ← choose
  if alive = 0 then
    return ubCommErrPeerNotReady
  lockShared n k
  let ready ← load (cacheInitializedAt n)
  let populated ← (if ready then pure ubCommOk else tryPopulateCache n)
  if populated ≠ ubCommOk then
    unlockShared n k
    return populated
  let ret ← enqueueRemote cf n m
  unlockShared n k
  return ret

/-- `remove_node_cache`. -/
def removeNodeCache (n : ℕ) : Call Unit := do
  lockUnique n
  resetShadowHead n
  storeAt (.fillThreshold n) (cachedThresholdAt n) 0
  storeAt (.fillVersion n) (cachedThresholdVersionAt n) 0
  store (cacheInitializedAt n) false
  store (lookupAt n) false
  unlockUnique n

/-- A PEER_EXIT message arrives at node `n`: `on_peer_exit`. -/
def onPeerExit (n : ℕ) : Call Unit := do
  .act .step (fun s _ =>
    if s.peerExits n = 0 then none
    else some ((peerExitsAt n).set (s.peerExits n - 1) s, ())) .ret
  removeNodeCache n

/-! ### The consumer node -/

/-- `trigger_force_full`: the head is put one lap behind the tail, on 64 bits. -/
def triggerForceFull : Call Unit := do
  let currTail ← load tailAt
  .act .forceFull (fun s _ => some ({ s with
    ring := { s.ring with head := (currTail + 18446744073709551616 - cf.capacity) % 18446744073709551616 }
    epoch := s.epoch + 1
    down := true }, ())) .ret

/-- PEER_EXIT to every node that is known; a send may fail. -/
def broadcastPeerExit : List ℕ → Call Unit
  | [] => return ()
  | n :: ns => do
    let sent ← choose
    if sent ≠ 0 then
      let _ ← fetch (peerExitsAt n) (· + 1)
      broadcastPeerExit ns
    else
      broadcastPeerExit ns

/-- `deinit_and_broadcast`. -/
def deinitAndBroadcast : Call Unit := do
  triggerForceFull cf
  store offsetAt false
  store initializedAt false
  broadcastPeerExit (List.range maxNodesLimit)

/-- The constructor's loop over the entries, from slot `i`. -/
def clearSlots : ℕ → ℕ → Call Unit
  | _, 0 => return ()
  | i, count + 1 => do
    store (readySeqAt i) 0
    clearSlots (i + 1) count

/-- The constructor of `MPSCRingBuffer`, on memory that was a ring before. -/
def construct : Call Unit := do
  store headAt 0
  .act .step (fun s _ => some ({ s with ring := { s.ring with tail := 0, log := [] } }, ())) .ret
  store localCachedHeadAt 0
  store thresholdAt (calculateFlowThreshold cf.capacity defaultCongestionThresholdPercent)
  store thresholdVersionAt 1
  store congestedAt false
  store maxDepthAt 0
  clearSlots 0 cf.capacity

/-- `publish_to_billboard`; from here on the ring is in service. -/
def publishToBillboard : Call Unit := do
  store offsetAt false
  store offsetAt true
  .act .step (fun s _ => some ({ s with initialized := true, down := false }, ())) .ret

/-- `init`, as far as the ring is concerned; the consuming thread starts with a fresh state. -/
def initTransport : Call Unit := do
  construct cf
  publishToBillboard
  store staleAt ⟨none, 0⟩

end Ring

end UbsAtomic
