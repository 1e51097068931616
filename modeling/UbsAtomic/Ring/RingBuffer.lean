import Mathlib
import UbsAtomic.Conc.Atomic
import UbsAtomic.Lock.State

/-! The message ring (`MPSCRingBuffer.cpp`): many producers, one consumer, one slot per ticket.

        head                tail
          ▼                   ▼
        ┌───┬───┬───┬───┬───┬───┐      a producer takes ticket `tail`, copies header and body into
        │ k │k+1│k+2│   │   │   │      slot `ticket & mask` and publishes `ready_seq = ticket + 1`;
        └───┴───┴───┴───┴───┴───┘      the consumer reads slot `head` once `ready_seq = head + 1`

    Producers decide whether the ring is full from cached copies of `head`. Payloads are copied byte
    by byte. Counters are natural numbers, but the sums of the full checks are taken on 64 bits, as a
    forged head may lie below zero; `log` records which message took which ticket and is never read
    by a call. -/

namespace UbsAtomic

open Conc Conc.Prog

namespace Ring

/-! ### Messages -/

/-- `message_header_t`. -/
structure Header where
  srcThreadId : UInt64
  bodyLength : UInt32
  destNodeId : UInt8
  srcNodeId : UInt8
  msgType : UInt8
  priority : UInt8
  deriving DecidableEq

def msgHeaderLen : ℕ := 16

/-- `count` bytes of a number, the lowest first. -/
def leBytes (n : ℕ) : ℕ → List UInt8
  | 0 => []
  | count + 1 => UInt8.ofNat n :: leBytes (n / 256) count

/-- The header as it lies in memory. -/
def Header.bytes (h : Header) : List UInt8 :=
  leBytes h.srcThreadId.toNat 8 ++ leBytes h.bodyLength.toNat 4
    ++ [h.destNodeId, h.srcNodeId, h.msgType, h.priority]

/-- A message whose header tells the length of its body. -/
structure Message where
  header : Header
  body : List UInt8
  length_body : body.length = header.bodyLength.toNat
  deriving DecidableEq

def Message.bytes (m : Message) : List UInt8 := m.header.bytes ++ m.body

/-! ### The ring in memory -/

/-- What the ring is constructed with. -/
structure Conf where
  shift : ℕ
  maxMsgSize : ℕ
  maxMsgSize_lt : maxMsgSize < 4294967296

/-- `entry_num_`, a power of two. -/
def Conf.capacity (cf : Conf) : ℕ := 2 ^ cf.shift

/-- The slot of a ticket: `ticket & index_mask_`. -/
def Conf.index (cf : Conf) (ticket : ℕ) : ℕ := ticket &&& (cf.capacity - 1)

/-- `MPSCRingBuffer::Entry`. -/
structure Entry where
  readySeq : ℕ
  data : ℕ → UInt8

/-- `MPSCRingBuffer`, with the messages that took tickets. -/
structure RingBuffer where
  head : ℕ
  tail : ℕ
  entries : ℕ → Entry
  localProducerCachedHead : ℕ
  congestionThreshold : ℕ
  congestionThresholdVersion : ℕ
  congested : Bool
  maxDepth : ℕ
  log : List Message

/-- `RemoteRingCache` of a producer node, with its entry of `remote_lookup_table_`; `epoch` is the
    incarnation of the ring in which `shadow_head` was last set to `0`. -/
structure Cache where
  lookup : Bool
  initialized : Bool
  shadowHead : ℕ
  cachedThreshold : ℕ
  cachedThresholdVersion : ℕ
  epoch : ℕ

/-- `LocalStaleReservationState` of the consumer for this ring; `none` is `UINT64_MAX`. -/
structure StaleState where
  headSeq : Option ℕ
  firstSeenUs : ℕ

/-- `FlowConfigUpdateMessage`, for the one ring that is spoken about. -/
structure FlowConfigUpdateMessage where
  version : ℕ
  threshold : ℕ
  deriving DecidableEq

/-- One ring with its consumer node and the producer nodes. On the billboard `offset` says whether
    the ring's offset is valid and `initialized` is the consumer's flag; `peerExits n` are the
    PEER_EXIT messages under way to node `n`, `mail n` the FLOW_CONFIG_UPDATE messages. `(n, k)` in
    `sharers` is thread `k` of node `n` with the shared side of its `cache_mutex_`, `removing n` the
    other side. The ring is `down` from the moment it is faked full until it is published again, and
    `epoch` counts how often that happened. -/
structure Mem where
  ring : RingBuffer
  caches : ℕ → Cache
  stale : StaleState
  offset : Bool
  initialized : Bool
  peerExits : ℕ → ℕ
  mail : ℕ → List FlowConfigUpdateMessage
  sharers : List (ℕ × ℕ)
  removing : ℕ → Bool
  epoch : ℕ
  down : Bool

/-- The steps that are spoken about: payload and `ready_seq` stores of a ticket, the store that
    skips a reservation, the begin of a remote enqueue, the read of a shadow head, and the store
    that fakes a full ring. Then those of the congestion threshold: the store of a new one, and the
    read of the version by a call that has read the threshold; and for the copy of node `n` the
    store of a threshold whose version is still to be read, that read, and the two stores of a
    call that has both. -/
inductive Label where
  | step
  | write (ticket : ℕ)
  | commit (ticket : ℕ)
  | skip
  | useCache (node : ℕ)
  | shadow (node : ℕ)
  | forceFull
  | setThreshold
  | readVersion
  | copyThreshold (n : ℕ)
  | copyVersion (n : ℕ)
  | fillThreshold (n : ℕ)
  | fillVersion (n : ℕ)
  deriving DecidableEq

instance : Inhabited Label := ⟨.step⟩

abbrev Call := Prog Mem Label

/-! ### Where the variables are -/

/-- A field of the ring. -/
def field {α : Type} (get : RingBuffer → α) (set : α → RingBuffer → RingBuffer) : Place Mem α where
  get s := get s.ring
  set v s := { s with ring := set v s.ring }

def headAt : Place Mem ℕ := field (·.head) fun v r => { r with head := v }

def tailAt : Place Mem ℕ := field (·.tail) fun v r => { r with tail := v }

def localCachedHeadAt : Place Mem ℕ :=
  field (·.localProducerCachedHead) fun v r => { r with localProducerCachedHead := v }

def thresholdAt : Place Mem ℕ :=
  field (·.congestionThreshold) fun v r => { r with congestionThreshold := v }

def thresholdVersionAt : Place Mem ℕ :=
  field (·.congestionThresholdVersion) fun v r => { r with congestionThresholdVersion := v }

def congestedAt : Place Mem Bool := field (·.congested) fun v r => { r with congested := v }

def maxDepthAt : Place Mem ℕ := field (·.maxDepth) fun v r => { r with maxDepth := v }

def RingBuffer.setEntry (r : RingBuffer) (i : ℕ) (e : Entry) : RingBuffer :=
  { r with entries := Function.update r.entries i e }

/-- `entry->ready_seq` of slot `i`. -/
def readySeqAt (i : ℕ) : Place Mem ℕ :=
  field (fun r => (r.entries i).readySeq) fun v r => r.setEntry i { r.entries i with readySeq := v }

/-- `entry->data[j]` of slot `i`. -/
def byteAt (i j : ℕ) : Place Mem UInt8 :=
  field (fun r => (r.entries i).data j) fun v r =>
    r.setEntry i { r.entries i with data := Function.update (r.entries i).data j v }

/-- A number of `count` bytes in memory, the lowest first. -/
def readLe (data : ℕ → UInt8) (off : ℕ) : ℕ → ℕ
  | 0 => 0
  | count + 1 => (data off).toNat + 256 * readLe data (off + 1) count

/-- `hdr->body_length` of slot `i`, read in place. -/
def bodyLengthAt (i : ℕ) : Place Mem ℕ := ⟨fun s => readLe (s.ring.entries i).data 8 4, fun _ s => s⟩

/-- A field of the cache of producer node `n`. -/
def cacheField {α : Type} (n : ℕ) (get : Cache → α) (set : α → Cache → Cache) : Place Mem α where
  get s := get (s.caches n)
  set v s := { s with caches := Function.update s.caches n (set v (s.caches n)) }

def shadowHeadAt (n : ℕ) : Place Mem ℕ :=
  cacheField n (·.shadowHead) fun v c => { c with shadowHead := v }

def cachedThresholdAt (n : ℕ) : Place Mem ℕ :=
  cacheField n (·.cachedThreshold) fun v c => { c with cachedThreshold := v }

def cachedThresholdVersionAt (n : ℕ) : Place Mem ℕ :=
  cacheField n (·.cachedThresholdVersion) fun v c => { c with cachedThresholdVersion := v }

def staleAt : Place Mem StaleState := ⟨(·.stale), fun v s => { s with stale := v }⟩

/-! ### Results -/

def ubCommOk : ℤ := 0
def ubCommSendCongested : ℤ := 1
def ubCommErrRingFull : ℤ := -4096
def ubCommErrRingBusy : ℤ := -4097
def ubCommErrPeerNotReady : ℤ := -4099
def ubCommErrRingNotFound : ℤ := -4100
def eMsgSize : ℤ := -90
def eInval : ℤ := -22

def maxNodesLimit : ℕ := 16
def maxPriorityLevels : ℕ := 8
def lockRingPriority : ℕ := 0
def maxCasRetries : ℕ := 1000
def flowConfigRefreshInterval : ℕ := 1024
def halfWriteTimeoutUs : ℕ := 5000000

/-! ### 64 bits -/

/-- Wrap-around of `uint64_t`. -/
def u64 (n : ℕ) : ℕ := n % 18446744073709551616

theorem u64_le (n : ℕ) : u64 n ≤ n := Nat.mod_le _ _

theorem u64_lt (n : ℕ) : u64 n < 18446744073709551616 := Nat.mod_lt _ (by norm_num)

/-- Subtraction of `uint64_t`. -/
def u64Sub (a b : ℕ) : ℕ := u64 (a + 18446744073709551616 - b)

/-! ### Flow control -/

variable (cf : Conf)

/-- `record_depth`. -/
def recordDepth (used : ℕ) : Call Unit := do
  let old ← load maxDepthAt
  loop (fun old => do
    if used > old then
      let raised ← casWeak maxDepthAt old used
      if raised.1 then
        return .inr ()
      return .inl raised.2
    return .inr ()) old

/-- `sample_flow_state`. -/
def sampleFlowState (sample : ℕ) : Call ℤ := do
  let used := min sample cf.capacity
  recordDepth used
  let threshold ← load thresholdAt
  if used ≥ threshold then
    let congested ← load congestedAt
    if congested then
      return ubCommSendCongested
    let _ ← cas congestedAt false true
    return ubCommSendCongested
  let congested ← load congestedAt
  if congested = false then
    return ubCommOk
  let left ← cas congestedAt true false
  if left.1 then
    return ubCommOk
  let again ← load congestedAt
  return if again then ubCommSendCongested else ubCommOk

/-- `approximate_used`: the tail first, then the head. -/
def approximateUsed : Call ℕ := do
  let tail ← load tailAt
  let head ← load headAt
  return min (tail - head) cf.capacity

/-- `flow_result_after_enqueue`. -/
def flowResultAfterEnqueue (newTail : ℕ) (cachedHead : Place Mem ℕ) : Call ℤ := do
  let threshold ← load thresholdAt
  let cached ← load cachedHead
  if newTail - cached < threshold then
    return ubCommOk
  let fresh ← load headAt
  store cachedHead fresh
  sampleFlowState cf (newTail - fresh)

/-- `refresh_cached_threshold`. -/
def refreshCachedThreshold (n : ℕ) : Call ℕ := do
  let remoteVersion ← load thresholdVersionAt
  let version ← load (cachedThresholdVersionAt n)
  if remoteVersion ≠ version then
    let threshold ← load thresholdAt
    storeAt (.fillThreshold n) (cachedThresholdAt n) threshold
    storeAt (.fillVersion n) (cachedThresholdVersionAt n) remoteVersion
  load (cachedThresholdAt n)

/-- The threshold `flow_result_after_enqueue_cached` starts with. -/
def cachedFlowThreshold (newTail n : ℕ) : Call ℕ := do
  let threshold ← load (cachedThresholdAt n)
  let version ← load (cachedThresholdVersionAt n)
  if version = 0 ∨ newTail &&& (flowConfigRefreshInterval - 1) = 0 then
    refreshCachedThreshold n
  else
    return threshold

/-- `flow_result_after_enqueue_cached`. -/
def flowResultAfterEnqueueCached (newTail n : ℕ) : Call ℤ := do
  let threshold ← cachedFlowThreshold newTail n
  if threshold = 0 then
    return ubCommSendCongested
  let cached ← loadAt (.shadow n) (shadowHeadAt n)
  if newTail - cached < threshold then
    return ubCommOk
  let _ ← refreshCachedThreshold n
  let fresh ← load headAt
  store (shadowHeadAt n) fresh
  sampleFlowState cf (newTail - fresh)

/-! ### Enqueue -/

/-- The full check of both enqueues, with the cached head that belongs to the producer and the label
    of its read. -/
def hasRoom (e : Label) (cachedHead : Place Mem ℕ) (currTail : ℕ) : Call Bool := do
  let cached ← loadAt e cachedHead
  if u64 (cached + cf.capacity) ≤ currTail then
    let fresh ← load headAt
    store cachedHead fresh
    if u64 (fresh + cf.capacity) ≤ currTail then
      let _ ← sampleFlowState cf cf.capacity
      return false
    return true
  return true

/-- The weak compare-and-swap on `tail_`; success gives the ticket to `m`. -/
def reserve (m : Message) (currTail : ℕ) : Call (Bool × ℕ) :=
  .act .step (fun s c =>
    if s.ring.tail = currTail ∧ c = 0 then
      some ({ s with ring := { s.ring with tail := currTail + 1, log := s.ring.log ++ [m] } },
        (true, currTail))
    else some (s, (false, s.ring.tail))) .ret

/-- `memcpy` into slot `i`, for ticket `k`. -/
def copyIn (k i : ℕ) : List UInt8 → ℕ → Call Unit
  | [], _ => return ()
  | b :: bs, off => do
    storeAt (.write k) (byteAt i off) b
    copyIn k i bs (off + 1)

/-- Header, body if there is one, then `ready_seq`. -/
def writeEntry (m : Message) (k : ℕ) : Call Unit := do
  copyIn k (cf.index k) m.header.bytes 0
  if m.body.length > 0 then
    copyIn k (cf.index k) m.body msgHeaderLen
  storeAt (.commit k) (readySeqAt (cf.index k)) (k + 1)

/-- One round of the reservation loop of `enqueue_local`. -/
def reserveLocalRound (m : Message) (currTail : ℕ) : Call (ℕ ⊕ Option ℕ) := do
  let room ← hasRoom cf .step localCachedHeadAt currTail
  if room = false then
    return .inr none
  let taken ← reserve m currTail
  if taken.1 then
    return .inr (some currTail)
  return .inl taken.2

/-- `enqueue_local`. -/
def enqueueLocal (m : Message) : Call ℤ := do
  if u32 (msgHeaderLen + m.body.length) > cf.maxMsgSize then
    return eMsgSize
  let tail ← load tailAt
  let ticket ← loop (reserveLocalRound cf m) tail
  match ticket with
  | none => return ubCommErrRingFull
  | some k =>
    writeEntry cf m k
    flowResultAfterEnqueue cf (k + 1) localCachedHeadAt

/-- One round of the reservation loop of `enqueue_remote`. -/
def reserveRemoteRound (n : ℕ) (m : Message) (st : ℕ × ℕ) : Call (ℕ × ℕ ⊕ Except ℤ ℕ) := do
  if st.1 > maxCasRetries then
    return .inr (.error ubCommErrRingBusy)
  let room ← hasRoom cf (.shadow n) (shadowHeadAt n) st.2
  if room = false then
    return .inr (.error ubCommErrRingFull)
  let taken ← reserve m st.2
  if taken.1 then
    return .inr (.ok st.2)
  return .inl (st.1 + 1, taken.2)

/-- `enqueue_remote`, for producer node `n`. -/
def enqueueRemote (n : ℕ) (m : Message) : Call ℤ := do
  if u32 (msgHeaderLen + m.body.length) > cf.maxMsgSize then
    return eMsgSize
  let tail ← loadAt (.useCache n) tailAt
  let ticket ← loop (reserveRemoteRound cf n m) (0, tail)
  match ticket with
  | .error e => return e
  | .ok k =>
    writeEntry cf m k
    flowResultAfterEnqueueCached cf (k + 1) n

/-! ### Dequeue -/

/-- `memcpy` out of slot `i`. -/
def copyOut (i : ℕ) : ℕ → ℕ → Call (List UInt8)
  | _, 0 => return []
  | off, count + 1 => do
    let b ← load (byteAt i off)
    let bs ← copyOut i (off + 1) count
    return b :: bs

/-- After `head` has moved: an exit from congestion is noticed here. -/
def noticeDepth : Call Unit := do
  let congested ← load congestedAt
  if congested then
    let used ← approximateUsed cf
    let _ ← sampleFlowState cf used

/-- `try_skip_stale_reserved_entry`; the clock is a choice of the surroundings. -/
def trySkipStaleReservedEntry (curHead : ℕ) : Call Bool := do
  let tail ← load tailAt
  if tail ≤ curHead then
    return false
  let seq ← load (readySeqAt (cf.index curHead))
  if seq = curHead + 1 then
    return false
  let now ← choose
  let state ← load staleAt
  if state.headSeq ≠ some curHead then
    store staleAt ⟨some curHead, now⟩
    return false
  if state.firstSeenUs = 0 ∨ now < state.firstSeenUs
      ∨ now - state.firstSeenUs < halfWriteTimeoutUs then
    return false
  let seq ← load (readySeqAt (cf.index curHead))
  if seq = curHead + 1 then
    store staleAt ⟨none, 0⟩
    return false
  storeAt .skip (readySeqAt (cf.index curHead)) 0
  store headAt (curHead + 1)
  store staleAt ⟨none, 0⟩
  noticeDepth cf
  return true

/-- `dequeue` into a buffer of `bufferCap` bytes: the ticket it stood at and the bytes, or `none`
    for the result `0`. The probe counter is shared with the thread's other rings, so whether this
    call probes for a stale reservation is a choice of the surroundings. -/
def dequeue (bufferCap : ℕ) : Call (Option (ℕ × List UInt8)) := do
  let curHead ← load headAt
  let seq ← load (readySeqAt (cf.index curHead))
  if seq ≠ curHead + 1 then
    let probe ← choose
    if probe ≠ 0 then
      let _ ← trySkipStaleReservedEntry cf curHead
      return none
    return none
  let bodyLength ← load (bodyLengthAt (cf.index curHead))
  if msgHeaderLen + bodyLength > cf.maxMsgSize then
    store (readySeqAt (cf.index curHead)) 0
    store headAt (curHead + 1)
    return none
  let copyLen := if msgHeaderLen + bodyLength > bufferCap then bufferCap else u32 (msgHeaderLen + bodyLength)
  let bytes ← copyOut (cf.index curHead) 0 copyLen
  store (readySeqAt (cf.index curHead)) 0
  store headAt (curHead + 1)
  noticeDepth cf
  return some (curHead, bytes)

/-! ### A fresh ring -/

/-- `calculate_flow_threshold`. -/
def calculateFlowThreshold (capacity percent : ℕ) : ℕ :=
  let threshold := (capacity * percent + 99) / 100
  let raised := if percent ≠ 0 ∧ threshold = 0 then 1 else threshold
  min raised capacity

def defaultCongestionThresholdPercent : ℕ := 80

/-- The ring right after its constructor. -/
def RingBuffer.init : RingBuffer where
  head := 0
  tail := 0
  entries := fun _ => ⟨0, fun _ => 0⟩
  localProducerCachedHead := 0
  congestionThreshold := calculateFlowThreshold cf.capacity defaultCongestionThresholdPercent
  congestionThresholdVersion := 1
  congested := false
  maxDepth := 0
  log := []

/-- A published ring that nobody has sent to; every node has found it in advance. -/
def Mem.init : Mem where
  ring := .init cf
  caches := fun _ => ⟨true, false, 0, 0, 0, 0⟩
  stale := ⟨none, 0⟩
  offset := true
  initialized := true
  peerExits := fun _ => 0
  mail := fun _ => []
  sharers := []
  removing := fun _ => false
  epoch := 0
  down := false

end Ring

end UbsAtomic
