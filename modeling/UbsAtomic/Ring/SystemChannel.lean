import UbsAtomic.Ring.Heartbeat
import UbsAtomic.Ring.Retry

/-! What an application can do to the system channel (`ub_dist_comm_queue.cpp`).

        application   send ───────────▶  rings 1 … 7      register ──▶ callbacks_[0 … 252]
        library       broadcast, locks ─▶ ring 0                       callbacks_[253 … 255]
                                            │                                │
                                            └──▶ dispatch_internal ◀─────────┘

    The reserved types are listed again at each entry of the C interface. Whether a ring takes a
    message, whether a peer's ring is found and whether the pool takes a task are answers of the
    surroundings. A message in a ring carries a mark that says who supplied it. -/

namespace UbsAtomic

namespace SystemChannel

open UbsAtomic.Ring (Header Placed Endpoint sendRefusal ringPriority msgTypeDistLock
  msgTypeSysPeerExit msgTypeSysFlowConfigUpdate lockRingPriority maxPriorityLevels maxNodesLimit
  msgHeaderLen leBytes readLe eInval eMsgSize ubCommOk ubCommErrRingNotFound ubCommErrPeerNotReady)

def eOpNotSupp : ℤ := -95
def eNoEnt : ℤ := -2
def ePipe : ℤ := -32

/-! ### The state -/

/-- `ub_callback_t`: the three handlers of the library, and those of the application. -/
inductive Callback where
  | messageProcessThreadFunc
  | onPeerExit
  | onFlowConfigUpdate
  | app (k : ℕ)
  deriving DecidableEq

/-- `ub_func_type_t`, with the values that are none. -/
inductive FuncType where
  | sync
  | async
  | other
  deriving DecidableEq

/-- `cb_info_t`. -/
structure CbInfo where
  func : Option Callback
  ctx : Option ℕ
  type : FuncType
  deriving DecidableEq

/-- Who supplied a message. -/
inductive Origin where
  | app
  | system
  deriving DecidableEq

structure Entry where
  origin : Origin
  msg : Ring.Message
  deriving DecidableEq

/-- The part of `RemoteRingCache` that changes. -/
structure Cache where
  initialized : Bool
  shadowHead : ℕ
  cachedThreshold : ℕ
  cachedThresholdVersion : ℕ
  deriving DecidableEq

/-- A local ring: its size, its congestion threshold and the version of that. -/
structure LocalRing where
  capacity : ℕ
  threshold : ℕ
  version : ℕ

/-- The transport at address `self`, with what it has placed in the rings of all nodes, the handlers
    it has run and the tasks it has given to the pool. -/
structure Node where
  self : ℕ
  currentNodeId : UInt8
  idxToNodeId : List UInt8
  initComplete : Bool
  localRings : ℕ → Option LocalRing
  caches : UInt8 → ℕ → Cache
  heartbeat : Heartbeat.Transport
  callbacks : UInt8 → CbInfo
  workerPool : Bool
  rings : UInt8 → ℕ → List Entry
  invoked : List (CbInfo × Ring.Message)
  pooled : List (CbInfo × Ring.Message)

/-- What the surroundings answer to one send: the search for a ring that is not cached finds its
    threshold and version or fails, and the ring takes the message or not. -/
structure Answer where
  populate : Except ℤ (ℕ × ℕ)
  enqueue : ℤ

/-! ### Sending -/

def Node.endpoint (s : Node) : Endpoint where
  currentNodeId := s.currentNodeId
  knows n := s.idxToNodeId.contains n
  localRing := true

/-- A ring takes a message exactly if it answers so. -/
def place (n : UInt8) (prio : ℕ) (e : Entry) (ret : ℤ) (s : Node) : ℤ × Node :=
  if Placed ret then
    let ring := s.rings n prio ++ [e]
    (ret, { s with rings := Function.update s.rings n (Function.update (s.rings n) prio ring) })
  else (ret, s)

def setCache (n : UInt8) (prio : ℕ) (c : Cache) (s : Node) : Node :=
  { s with caches := Function.update s.caches n (Function.update (s.caches n) prio c) }

/-- `try_populate_cache`. -/
def tryPopulateCache (n : UInt8) (prio : ℕ) (a : Answer) (s : Node) : ℤ × Node :=
  match a.populate with
  | .error e => (e, s)
  | .ok (threshold, version) => (ubCommOk, setCache n prio ⟨true, 0, threshold, version⟩ s)

/-- `UBShmTransport::send` into the ring of priority `prio`, past the checks. -/
def route (e : Entry) (prio : ℕ) (a : Answer) (s : Node) : ℤ × Node :=
  let dest := e.msg.header.destNodeId
  if dest = s.currentNodeId then
    if (s.localRings prio).isNone then (ubCommErrRingNotFound, s) else place dest prio e a.enqueue s
  else if (s.caches dest prio).initialized then place dest prio e a.enqueue s
  else
    let (ret, s) := tryPopulateCache dest prio a s
    if ret ≠ ubCommOk then (ret, s) else place dest prio e a.enqueue s

/-- `UBShmTransport::send`. -/
def send (e : Entry) (a : Answer) (s : Node) : ℤ × Node :=
  let h := e.msg.header
  match sendRefusal s.endpoint h, ringPriority h with
  | some code, _ => (code, s)
  | none, none => (eInval, s)
  | none, some prio =>
    if h.destNodeId ≠ s.currentNodeId ∧ (s.heartbeat.peers h.destNodeId.toNat).alive = false then
      (ubCommErrPeerNotReady, s)
    else route e prio a s

/-- `ub_comm_queue_send`. -/
def ubCommQueueSend (msg : Option Ring.Message) (a : Answer) (s : Node) : ℤ × Node :=
  match msg with
  | none => (eInval, s)
  | some m =>
    if m.header.msgType = msgTypeDistLock then (eOpNotSupp, s)
    else if m.header.msgType = msgTypeSysPeerExit then (eOpNotSupp, s)
    else if m.header.msgType = msgTypeSysFlowConfigUpdate then (eOpNotSupp, s)
    else send ⟨.app, m⟩ a s

/-! ### Registering -/

/-- `register_func`. -/
def registerFunc (msgType : UInt8) (type : FuncType) (func : Option Callback) (ctx : Option ℕ)
    (s : Node) : ℤ × Node :=
  if type ≠ .sync ∧ type ≠ .async then (eInval, s)
  else (0, { s with callbacks := Function.update s.callbacks msgType ⟨func, ctx, type⟩ })

/-- `ub_comm_queue_register_process_func`. -/
def ubCommQueueRegisterProcessFunc (msgType : UInt8) (type : FuncType) (func : Option Callback)
    (ctx : Option ℕ) (s : Node) : ℤ × Node :=
  if func.isNone then (eInval, s)
  else if msgType = msgTypeDistLock then (eOpNotSupp, s)
  else if msgType = msgTypeSysPeerExit then (eOpNotSupp, s)
  else registerFunc msgType type func ctx s

/-! ### The congestion threshold and the heartbeat -/

/-- `FlowConfigUpdateMessage` in memory: version, threshold, priority and three bytes of padding. -/
def flowConfigBody (priority : UInt8) (threshold version : ℕ) : List UInt8 :=
  leBytes version 8 ++ leBytes threshold 4 ++ [priority, 0, 0, 0]

theorem length_flowConfigBody (priority : UInt8) (threshold version : ℕ) :
    (flowConfigBody priority threshold version).length = (16 : UInt32).toNat := by
  simp [flowConfigBody]

/-- The message of `broadcast_flow_config_update` to node `dest`. -/
def flowConfigMessage (src dest priority : UInt8) (threshold version : ℕ) : Ring.Message where
  header := ⟨0, 16, dest, src, msgTypeSysFlowConfigUpdate, 0⟩
  body := flowConfigBody priority threshold version
  length_body := length_flowConfigBody priority threshold version

/-- The loop of `broadcast_flow_config_update`. -/
def broadcastTo (priority : UInt8) (threshold version : ℕ) (a : UInt8 → Answer) :
    List UInt8 → Node → Node
  | [], s => s
  | n :: ns, s =>
    if n = s.currentNodeId then broadcastTo priority threshold version a ns s
    else broadcastTo priority threshold version a ns
      (send ⟨.system, flowConfigMessage s.currentNodeId n priority threshold version⟩ (a n) s).2

/-- `broadcast_flow_config_update`. -/
def broadcastFlowConfigUpdate (priority : UInt8) (threshold version : ℕ) (a : UInt8 → Answer)
    (s : Node) : Node :=
  if s.initComplete = false ∨ s.idxToNodeId = [] then s
  else broadcastTo priority threshold version a s.idxToNodeId s

/-- `set_congestion_threshold`. -/
def setCongestionThreshold (priority : UInt8) (percent : ℕ) (a : UInt8 → Answer) (s : Node) :
    ℤ × Node :=
  if priority.toNat = lockRingPriority ∨ priority.toNat ≥ maxPriorityLevels then (eInval, s)
  else
    match s.localRings priority.toNat with
    | none => (ubCommErrRingNotFound, s)
    | some ring =>
      if percent > 100 then (eInval, s)
      else
        let ring := { ring with
          threshold := Ring.calculateFlowThreshold ring.capacity percent
          version := ring.version + 1 }
        let s := { s with localRings := Function.update s.localRings priority.toNat (some ring) }
        (ubCommOk, broadcastFlowConfigUpdate priority ring.threshold ring.version a s)

/-- `config_heartbeat`; it may only be asked for the values in force. -/
def configHeartbeat (request : Option Heartbeat.Request) (effective : Bool) (s : Node) : ℤ × Node :=
  match request with
  | none => if effective then (ubCommOk, s) else (eInval, s)
  | some r =>
    if r.valid then (ubCommOk, { s with heartbeat := s.heartbeat.withConfig r }) else (eInval, s)

/-! ### Dispatching -/

/-- `remove_node_cache`. -/
def removeNodeCache (n : UInt8) (s : Node) : Node :=
  if n.toNat ≥ maxNodesLimit ∨ s.idxToNodeId.contains n = false then s
  else { s with caches := Function.update s.caches n fun prio =>
    if prio < maxPriorityLevels then ⟨false, 0, 0, 0⟩ else s.caches n prio }

/-- `on_peer_exit`. -/
def onPeerExit (m : Ring.Message) (s : Node) : Node :=
  if m.header.srcNodeId.toNat ≥ maxNodesLimit then s else removeNodeCache m.header.srcNodeId s

/-- `update_cached_congestion_threshold`. -/
def updateCachedCongestionThreshold (n : UInt8) (priority threshold version : ℕ) (s : Node) : Node :=
  if priority = lockRingPriority ∨ priority ≥ maxPriorityLevels then s
  else if n.toNat ≥ maxNodesLimit then s
  else if s.idxToNodeId.contains n = false then s
  else
    let cache := s.caches n priority
    if version ≤ cache.cachedThresholdVersion then s
    else setCache n priority
      { cache with cachedThreshold := threshold, cachedThresholdVersion := version } s

/-- `on_flow_config_update`. -/
def onFlowConfigUpdate (m : Ring.Message) (s : Node) : Node :=
  if m.header.bodyLength.toNat < 16 then s
  else
    let body := fun i => m.body.getD i 0
    updateCachedCongestionThreshold m.header.srcNodeId (readLe body 12 1) (readLe body 8 4)
      (readLe body 0 8) s

/-- `info.func(&m, info.ctx)`. What the handlers of locks and of the application do is theirs. -/
def invoke (info : CbInfo) (m : Ring.Message) (s : Node) : Node :=
  let s := { s with invoked := s.invoked ++ [(info, m)] }
  match info.func, info.ctx with
  | some .onPeerExit, some _ => onPeerExit m s
  | some .onFlowConfigUpdate, some _ => onFlowConfigUpdate m s
  | _, _ => s

/-- `dispatch_internal` with the callback it has found; `pool` is the answer of the worker pool. -/
def dispatchBy (info : CbInfo) (m : Ring.Message) (pool : ℤ) (s : Node) : ℤ × Node :=
  if info.func.isNone then (eNoEnt, s)
  else if info.type = .sync then (0, invoke info m s)
  else if s.workerPool = false then (ePipe, s)
  else if pool ≠ 0 then (pool, s)
  else (0, { s with pooled := s.pooled ++ [(info, m)] })

/-- `dispatch_internal`. -/
def dispatchInternal (m : Ring.Message) (len : ℕ) (pool : ℤ) (s : Node) : ℤ × Node :=
  if len < msgHeaderLen then (eMsgSize, s)
  else dispatchBy (s.callbacks m.header.msgType) m pool s

/-! ### Histories -/

/-- The calls of the application, and in between what the node does by itself: it dispatches a
    message, and its monitor judges the peers anew. -/
inductive Event where
  | send (msg : Option Ring.Message) (a : Answer)
  | register (msgType : UInt8) (type : FuncType) (func : Option Callback) (ctx : Option ℕ)
  | setCongestionThreshold (priority : UInt8) (percent : ℕ) (a : UInt8 → Answer)
  | configHeartbeat (request : Option Heartbeat.Request) (effective : Bool)
  | dispatch (m : Ring.Message) (len : ℕ) (pool : ℤ)
  | monitor (peers : ℕ → Heartbeat.Peer)

/-- The answer of a call, and the node after it. -/
def call : Event → Node → ℤ × Node
  | .send msg a => ubCommQueueSend msg a
  | .register t type func ctx => ubCommQueueRegisterProcessFunc t type func ctx
  | .setCongestionThreshold p percent a => setCongestionThreshold p percent a
  | .configHeartbeat r effective => configHeartbeat r effective
  | .dispatch m len pool => dispatchInternal m len pool
  | .monitor peers => fun s => (0, { s with heartbeat := { s.heartbeat with peers := peers } })

/-- The node after some events. -/
def after (es : List Event) (s : Node) : Node := es.foldl (fun s e => (call e s).2) s

/-- The types that are the library's own. -/
def Reserved (t : UInt8) : Prop :=
  t = msgTypeDistLock ∨ t = msgTypeSysPeerExit ∨ t = msgTypeSysFlowConfigUpdate

instance (t : UInt8) : Decidable (Reserved t) := inferInstanceAs (Decidable (_ ∨ _ ∨ _))

/-- The handler of flow control on the node at address `self`. -/
def flowHandler (self : ℕ) : CbInfo := ⟨some .onFlowConfigUpdate, some self, .sync⟩

/-- A node after `init`; the handler of locks is there if locks are used. -/
structure Initialised (s : Node) : Prop where
  complete : s.initComplete = true
  peerExit : s.callbacks msgTypeSysPeerExit = ⟨some .onPeerExit, some s.self, .sync⟩
  flow : s.callbacks msgTypeSysFlowConfigUpdate = flowHandler s.self
  lock : s.callbacks msgTypeDistLock = ⟨some .messageProcessThreadFunc, none, .async⟩ ∨
    s.callbacks msgTypeDistLock = ⟨none, none, .sync⟩
  channel : ∀ n, ∀ e ∈ s.rings n lockRingPriority, e.origin = .system

/-- The application puts another handler in the place of that of flow control. -/
def Overwrites (self : ℕ) : Event → Prop
  | .register t type func ctx => t = msgTypeSysFlowConfigUpdate ∧ func.isSome ∧
      (type = .sync ∨ type = .async) ∧ ⟨func, ctx, type⟩ ≠ flowHandler self
  | _ => False

/-- The calls of the application. -/
def Event.Call : Event → Prop
  | .dispatch _ _ _ | .monitor _ => False
  | _ => True

/-- What `init` has set up for good, the handlers apart. -/
def Node.setup (s : Node) : ℕ × List UInt8 × Bool := (s.self, s.idxToNodeId, s.workerPool)

/-- The handlers stay, and what comes into a ring of priority 0 is the library's. -/
structure Keeps (s s' : Node) : Prop where
  setup : s'.setup = s.setup
  callbacks : s'.callbacks = s.callbacks
  channel : ∀ n, ∀ e ∈ s'.rings n lockRingPriority,
    e ∈ s.rings n lockRingPriority ∨ e.origin = .system

section Calls

variable {s s' s'' : Node} {e : Entry} {a : Answer} {n : UInt8} {prio : ℕ} {m : Ring.Message}

theorem Keeps.of_rings (hsetup : s'.setup = s.setup) (hcallbacks : s'.callbacks = s.callbacks)
    (hrings : s'.rings = s.rings) : Keeps s s' :=
  ⟨hsetup, hcallbacks, fun _ _ he => .inl (hrings ▸ he)⟩

theorem Keeps.refl (s : Node) : Keeps s s := .of_rings rfl rfl rfl

theorem Keeps.trans (h : Keeps s s') (h' : Keeps s' s'') : Keeps s s'' where
  setup := h'.setup.trans h.setup
  callbacks := h'.callbacks.trans h.callbacks
  channel n e he := by
    rcases h'.channel n e he with he | hsys
    · exact h.channel n e he
    · exact .inr hsys

theorem keeps_place (h : prio ≠ lockRingPriority ∨ e.origin = .system) (ret : ℤ) :
    Keeps s (place n prio e ret s).2 := by
  unfold place
  split
  · refine ⟨rfl, rfl, fun n' e' he' => ?_⟩
    by_cases hn : n' = n
    · subst hn
      simp only [Function.update_self] at he'
      by_cases hp : lockRingPriority = prio
      · subst hp
        rw [Function.update_self, List.mem_append, List.mem_singleton] at he'
        rcases he' with he' | rfl
        · exact .inl he'
        · exact .inr (h.resolve_left (not_not_intro rfl))
      · rw [Function.update_of_ne hp] at he'
        exact .inl he'
    · simp only [Function.update_of_ne hn] at he'
      exact .inl he'
  · exact .refl s

theorem keeps_tryPopulateCache : Keeps s (tryPopulateCache n prio a s).2 := by
  unfold tryPopulateCache
  split
  · exact .refl s
  · exact .of_rings rfl rfl rfl

theorem keeps_route (h : prio ≠ lockRingPriority ∨ e.origin = .system) :
    Keeps s (route e prio a s).2 := by
  unfold route
  dsimp only
  split_ifs
  · exact .refl s
  · exact keeps_place h _
  · exact keeps_place h _
  · exact keeps_tryPopulateCache
  · exact keeps_tryPopulateCache.trans (keeps_place h _)

/-- Only messages of a reserved type are routed to priority 0. -/
theorem ringPriority_ne_zero {h : Header} (hr : ¬ Reserved h.msgType)
    (hp : ringPriority h = some prio) : prio ≠ lockRingPriority := by
  unfold ringPriority at hp
  unfold Reserved at hr
  rw [if_neg hr] at hp
  split_ifs at hp with hzero
  cases hp
  intro hlock
  exact hzero (UInt8.toNat_inj.mp hlock)

theorem keeps_send (h : Reserved e.msg.header.msgType → e.origin = .system) :
    Keeps s (send e a s).2 := by
  unfold send
  dsimp only
  split
  · exact .refl s
  · exact .refl s
  · rename_i hp
    split_ifs
    · exact .refl s
    · refine keeps_route ?_
      by_cases hr : Reserved e.msg.header.msgType
      · exact .inr (h hr)
      · exact .inl (ringPriority_ne_zero hr hp)

theorem keeps_ubCommQueueSend (msg : Option Ring.Message) : Keeps s (ubCommQueueSend msg a s).2 := by
  unfold ubCommQueueSend
  split
  · exact .refl s
  · split_ifs with h₁ h₂ h₃
    · exact .refl s
    · exact .refl s
    · exact .refl s
    · refine keeps_send fun hr => ?_
      rcases hr with hr | hr | hr
      · exact absurd hr h₁
      · exact absurd hr h₂
      · exact absurd hr h₃

theorem keeps_broadcastTo {priority : UInt8} {threshold version : ℕ} {a : UInt8 → Answer}
    (ns : List UInt8) (s : Node) : Keeps s (broadcastTo priority threshold version a ns s) := by
  induction ns generalizing s with
  | nil => exact .refl s
  | cons n ns ih =>
    rw [broadcastTo]
    split_ifs
    · exact ih s
    · exact (keeps_send fun _ => rfl).trans (ih _)

theorem keeps_broadcastFlowConfigUpdate {priority : UInt8} {threshold version : ℕ}
    {a : UInt8 → Answer} : Keeps s (broadcastFlowConfigUpdate priority threshold version a s) := by
  unfold broadcastFlowConfigUpdate
  split_ifs
  · exact .refl s
  · exact keeps_broadcastTo _ s

theorem keeps_setCongestionThreshold (priority : UInt8) (percent : ℕ) (a : UInt8 → Answer) :
    Keeps s (setCongestionThreshold priority percent a s).2 := by
  unfold setCongestionThreshold
  split
  · exact .refl s
  · split
    · exact .refl s
    · split
      · exact .refl s
      · refine Keeps.trans ?_ keeps_broadcastFlowConfigUpdate
        exact .of_rings rfl rfl rfl

theorem keeps_configHeartbeat (r : Option Heartbeat.Request) (effective : Bool) :
    Keeps s (configHeartbeat r effective s).2 := by
  unfold configHeartbeat
  split
  · split_ifs <;> exact .refl s
  · split_ifs
    · exact .of_rings rfl rfl rfl
    · exact .refl s

theorem keeps_onPeerExit : Keeps s (onPeerExit m s) := by
  unfold onPeerExit removeNodeCache
  split_ifs
  · exact .refl s
  · exact .refl s
  · exact .of_rings rfl rfl rfl

theorem keeps_onFlowConfigUpdate : Keeps s (onFlowConfigUpdate m s) := by
  unfold onFlowConfigUpdate updateCachedCongestionThreshold
  dsimp only
  split_ifs
  all_goals first | exact .refl s | exact .of_rings rfl rfl rfl

theorem keeps_invoke (info : CbInfo) : Keeps s (invoke info m s) := by
  have hlog : Keeps s { s with invoked := s.invoked ++ [(info, m)] } := .of_rings rfl rfl rfl
  unfold invoke
  dsimp only
  split
  · exact hlog.trans keeps_onPeerExit
  · exact hlog.trans keeps_onFlowConfigUpdate
  · exact hlog

theorem keeps_dispatchInternal (len : ℕ) (pool : ℤ) : Keeps s (dispatchInternal m len pool s).2 := by
  unfold dispatchInternal dispatchBy
  split_ifs
  · exact .refl s
  · exact .refl s
  · exact keeps_invoke _
  · exact .refl s
  · exact .refl s
  · exact .of_rings rfl rfl rfl

/-- No event but a registration changes the handlers. -/
theorem keeps_call (ev : Event) (h : ∀ t type func ctx, ev ≠ .register t type func ctx) :
    Keeps s (call ev s).2 := by
  cases ev with
  | send msg a => exact keeps_ubCommQueueSend msg
  | register t type func ctx => exact absurd rfl (h t type func ctx)
  | setCongestionThreshold p percent a => exact keeps_setCongestionThreshold p percent a
  | configHeartbeat r effective => exact keeps_configHeartbeat r effective
  | dispatch m len pool => exact keeps_dispatchInternal len pool
  | monitor peers => exact .of_rings rfl rfl rfl

/-- The cache entries that are initialised stay. -/
def Fills (s s' : Node) : Prop :=
  ∀ n prio, (s.caches n prio).initialized = true → s'.caches n prio = s.caches n prio

theorem Fills.refl (s : Node) : Fills s s := fun _ _ _ => rfl

theorem Fills.trans (h : Fills s s') (h' : Fills s' s'') : Fills s s'' := by
  intro n prio hi
  have heq := h n prio hi
  rw [h' n prio (heq ▸ hi), heq]

end Calls

/-! ### What a message does -/

section Effects

variable {s s' : Node} {m : Ring.Message} {info : CbInfo} {n : UInt8}

end Effects

/-! ### Isolation -/

section Runs

variable {s₀ s : Node} {es : List Event}

/-- What every event keeps that does not overwrite the handler of flow control. -/
structure Inv (s₀ s : Node) : Prop where
  setup : s.setup = s₀.setup
  handlers : ∀ t, Reserved t → s.callbacks t = s₀.callbacks t
  channel : ∀ n, ∀ e ∈ s.rings n lockRingPriority, e.origin = .system

theorem Inv.keeps {s' : Node} (h : Inv s₀ s) (hk : Keeps s s') : Inv s₀ s' where
  setup := hk.setup.trans h.setup
  handlers t ht := by rw [hk.callbacks, h.handlers t ht]
  channel n e he := by
    rcases hk.channel n e he with he | hsys
    · exact h.channel n e he
    · exact hsys

/-- The C interface takes every registration but that of two reserved types. -/
theorem Inv.register (hinit : Initialised s₀) (h : Inv s₀ s) {t : UInt8} {type : FuncType}
    {func : Option Callback} {ctx : Option ℕ} (hno : ¬ Overwrites s₀.self (.register t type func ctx)) :
    Inv s₀ (ubCommQueueRegisterProcessFunc t type func ctx s).2 := by
  unfold ubCommQueueRegisterProcessFunc registerFunc
  split_ifs with hnull hlock hexit htype
  · exact h
  · exact h
  · exact h
  · exact h
  · refine ⟨h.setup, fun t' ht' => ?_, h.channel⟩
    by_cases heq : t' = t
    · subst heq
      have hflow : t' = msgTypeSysFlowConfigUpdate := by
        rcases ht' with ht' | ht' | ht'
        · exact absurd ht' hlock
        · exact absurd ht' hexit
        · exact ht'
      have hsame : ⟨func, ctx, type⟩ = flowHandler s₀.self := by
        by_contra hne
        refine hno ⟨hflow, by simpa [Option.isSome_iff_ne_none] using hnull, ?_, hne⟩
        by_contra hbad
        exact htype (not_or.mp hbad)
      simp only [Function.update_self]
      rw [hsame, hflow, hinit.flow]
    · simp only [Function.update_of_ne heq]
      exact h.handlers t' ht'

theorem Inv.call (hinit : Initialised s₀) (h : Inv s₀ s) {ev : Event} (hno : ¬ Overwrites s₀.self ev) :
    Inv s₀ (call ev s).2 := by
  by_cases hreg : ∃ t type func ctx, ev = .register t type func ctx
  · obtain ⟨t, type, func, ctx, rfl⟩ := hreg
    exact h.register hinit hno
  · push Not at hreg
    exact h.keeps (keeps_call ev hreg)

end Runs

end SystemChannel

end UbsAtomic
