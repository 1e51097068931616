import Mathlib
import UbsAtomic.Conc.Events
import UbsAtomic.Ring.RingBuffer

/-! Heartbeats (`run_consumer_heartbeat_loop`, `run_producer_heartbeat_monitor`, `config_heartbeat`).

        consumer   ─●────────────●────────────●──      seq := seq + 1, then sleep(interval)
                     ╲            ╲            ╲
        board        seq 4        seq 5        seq 6    and the published interval
                       ╲            ╲
        monitor    ──○──○──○──○──○──○──○──○──○──        seq changed: alive, seen := now
                                                        else alive iff now - seen ≤ window

    The window is taken from the interval that is published, but the gap between two beats is the
    interval the thread went to sleep on. `config_heartbeat` replaces the former at once and the
    latter only when the thread wakes up. Time is in microseconds; the bodies of the loops and the
    calls take none of it, and a thread that has slept long enough runs before time goes on. -/

namespace UbsAtomic

open Conc

namespace Heartbeat

open UbsAtomic.Ring (maxNodesLimit)

def usPerMs : ℕ := 1000
def defaultHeartbeatIntervalMs : ℕ := 100
def defaultHeartbeatCheckIntervalMs : ℕ := 100
def defaultHeartbeatTimeoutMs : ℕ := 1000

/-! ### The state -/

/-- What `board->nodes[idx]` says about a consumer. -/
structure Slot where
  initialized : Bool
  consumerHeartbeatSeq : ℕ
  heartbeatIntervalMs : ℕ

/-- What a monitor keeps of a peer. -/
structure Peer where
  heartbeatSeq : ℕ
  heartbeatSeenUs : ℕ
  heartbeatTimeoutUs : ℕ
  alive : Bool

/-- A thread that sleeps: how long, and until when. -/
structure Sleep where
  asleep : ℕ
  wake : ℕ

/-- The heartbeat part of a transport; a loop that does not run is `none`. -/
structure Transport where
  heartbeatIntervalUs : ℕ
  heartbeatCheckIntervalUs : ℕ
  heartbeatTimeoutUs : ℕ
  localConsumerHeartbeatSeq : ℕ
  peers : ℕ → Peer
  started : Bool
  consumer : Option Sleep
  monitor : Option Sleep

/-- The transport after its constructor. -/
def Transport.init : Transport where
  heartbeatIntervalUs := defaultHeartbeatIntervalMs * usPerMs
  heartbeatCheckIntervalUs := defaultHeartbeatCheckIntervalMs * usPerMs
  heartbeatTimeoutUs := defaultHeartbeatTimeoutMs * usPerMs
  localConsumerHeartbeatSeq := 0
  peers := fun _ => ⟨0, 0, defaultHeartbeatTimeoutMs * usPerMs, true⟩
  started := false
  consumer := none
  monitor := none

/-- `idx_to_node_id_`, the same on all nodes; a node has one index. -/
structure Cluster where
  ids : List ℕ
  nodup : ids.Nodup

/-- `get_compact_index`. -/
def Cluster.index (c : Cluster) (id : ℕ) : Option ℕ := c.ids.idxOf? id

/-- The clock, the billboard by index and the transports by node id. -/
structure Sys where
  now : ℕ
  board : ℕ → Slot
  node : ℕ → Transport

def Sys.setSlot (x : Sys) (k : ℕ) (b : Slot) : Sys := { x with board := Function.update x.board k b }

def Sys.setNode (x : Sys) (id : ℕ) (t : Transport) : Sys :=
  { x with node := Function.update x.node id t }

/-! ### The code -/

variable (c : Cluster)

/-- `refresh_local_consumer_heartbeat`. -/
def refreshLocalConsumerHeartbeat (id : ℕ) (x : Sys) : Sys :=
  match c.index id with
  | none => x
  | some k =>
    let seq := (x.node id).localConsumerHeartbeatSeq + 1
    (x.setNode id { x.node id with localConsumerHeartbeatSeq := seq }).setSlot k
      { x.board k with consumerHeartbeatSeq := seq }

/-- The body of `run_consumer_heartbeat_loop`. -/
def heartbeatRound (id : ℕ) (x : Sys) : Sys :=
  let x' := refreshLocalConsumerHeartbeat c id x
  let intervalUs := (x'.node id).heartbeatIntervalUs
  x'.setNode id { x'.node id with consumer := some ⟨intervalUs, x'.now + intervalUs⟩ }

/-- `effective_timeout_us` for a peer with this slot. -/
def effectiveTimeoutUs (t : Transport) (b : Slot) : ℕ :=
  let remoteIntervalMs :=
    if b.heartbeatIntervalMs = 0 then defaultHeartbeatIntervalMs else b.heartbeatIntervalMs
  max t.heartbeatTimeoutUs (max (remoteIntervalMs * 3 * usPerMs) (t.heartbeatCheckIntervalUs * 2))

/-- The verdict on one peer. -/
def judge (now timeoutUs : ℕ) (b : Slot) (p : Peer) : Peer :=
  if b.consumerHeartbeatSeq ≠ 0 ∧ b.consumerHeartbeatSeq ≠ p.heartbeatSeq then
    ⟨b.consumerHeartbeatSeq, now, timeoutUs, true⟩
  else
    ⟨p.heartbeatSeq, p.heartbeatSeenUs, timeoutUs, decide (p.heartbeatSeenUs ≠ 0 ∧
      p.heartbeatSeenUs ≤ now ∧ now - p.heartbeatSeenUs ≤ timeoutUs)⟩

/-- One pass of the inner loop of `run_producer_heartbeat_monitor`, on node `id`. -/
def checkPeer (id : ℕ) (x : Sys) (t : Transport) (idx : ℕ) : Transport :=
  match c.ids[idx]? with
  | none => t
  | some nodeId =>
    if nodeId = id ∨ nodeId ≥ maxNodesLimit then t
    else if (x.board idx).initialized = false then t
    else
      let judged := judge x.now (effectiveTimeoutUs t (x.board idx)) (x.board idx) (t.peers nodeId)
      { t with peers := Function.update t.peers nodeId judged }

/-- The body of `run_producer_heartbeat_monitor`. -/
def monitorRound (id : ℕ) (x : Sys) : Sys :=
  let t := (List.range (min c.ids.length maxNodesLimit)).foldl (checkPeer c id x) (x.node id)
  let intervalUs := t.heartbeatCheckIntervalUs
  x.setNode id { t with monitor := some ⟨intervalUs, x.now + intervalUs⟩ }

/-- `ub_comm_queue_heartbeat_config_t`. -/
structure Request where
  heartbeatIntervalMs : ℕ
  checkIntervalMs : ℕ
  timeoutMs : ℕ

/-- The check of `config_heartbeat`. -/
def Request.valid (r : Request) : Bool :=
  !(r.heartbeatIntervalMs == 0 || r.checkIntervalMs == 0 || r.timeoutMs == 0
    || decide (r.timeoutMs < 2 * r.checkIntervalMs))

def Transport.withConfig (t : Transport) (r : Request) : Transport :=
  { t with
    heartbeatIntervalUs := r.heartbeatIntervalMs * usPerMs
    heartbeatCheckIntervalUs := r.checkIntervalMs * usPerMs
    heartbeatTimeoutUs := r.timeoutMs * usPerMs }

/-- `config_heartbeat`; the billboard is written by a node that has one. -/
def configHeartbeat (id : ℕ) (r : Request) (x : Sys) : Sys :=
  let x' := x.setNode id ((x.node id).withConfig r)
  match c.index id with
  | none => x'
  | some k =>
    if (x.node id).started then
      x'.setSlot k { x.board k with heartbeatIntervalMs := r.heartbeatIntervalMs }
    else x'

/-- The heartbeat part of `publish_to_billboard`, on a node with index `k`. -/
def publishHeartbeat (id k : ℕ) (x : Sys) : Sys :=
  let seq := (x.node id).localConsumerHeartbeatSeq + 1
  (x.setNode id { x.node id with localConsumerHeartbeatSeq := seq, started := true }).setSlot k
    ⟨true, seq, (x.node id).heartbeatIntervalUs / usPerMs⟩

/-- `start_reliability_threads`: both threads are about to run. -/
def startReliabilityThreads (id : ℕ) (x : Sys) : Sys :=
  let x' := refreshLocalConsumerHeartbeat c id x
  x'.setNode id { x'.node id with consumer := some ⟨0, x.now⟩, monitor := some ⟨0, x.now⟩ }

/-- `stop_reliability_threads`, and the billboard is cleared. -/
def stopHeartbeat (id k : ℕ) (x : Sys) : Sys :=
  (x.setNode id { x.node id with consumer := none, monitor := none }).setSlot k ⟨false, 0, 0⟩

/-! ### What happens when -/

/-- Time passes, a node starts, one of its loops goes round, it is configured, or it stops. -/
inductive Event where
  | elapse (us : ℕ)
  | start (id : ℕ)
  | beat (id : ℕ)
  | check (id : ℕ)
  | config (id : ℕ) (r : Request)
  | stop (id : ℕ)

/-- A thread that sleeps until `t` or longer. -/
def Sleep.lasts (t : ℕ) (sl : Sleep) : Bool := t ≤ sl.wake

/-- Nobody on the node has to run before `t`. -/
def Transport.idleUntil (n : Transport) (t : ℕ) : Bool :=
  n.consumer.all (Sleep.lasts t) && n.monitor.all (Sleep.lasts t)

/-- The thread wakes up now. -/
def due (now : ℕ) (sl : Option Sleep) : Bool := sl.any fun sl => sl.wake = now

def step : Event → Sys → Option Sys
  | .elapse us, x =>
    if c.ids.all fun id => (x.node id).idleUntil (x.now + us) then some { x with now := x.now + us }
    else none
  | .start id, x =>
    (c.index id).bind fun k =>
      if (x.node id).started then none
      else some (startReliabilityThreads c id (publishHeartbeat id k x))
  | .beat id, x => if due x.now (x.node id).consumer then some (heartbeatRound c id x) else none
  | .check id, x => if due x.now (x.node id).monitor then some (monitorRound c id x) else none
  | .config id r, x => if r.valid then some (configHeartbeat c id r x) else none
  | .stop id, x => (c.index id).map fun k => stopHeartbeat id k x

/-- Nobody has started yet. -/
structure Start (x : Sys) : Prop where
  now : 0 < x.now
  board : ∀ k, (x.board k).initialized = false
  node : ∀ id, x.node id = .init

/-! ### One monitor and one consumer -/

/-- What is to be seen of consumer `j`, at index `k`, and of what monitor `i` thinks of it. -/
structure View where
  now : ℕ
  slot : Slot
  started : Bool
  seq : ℕ
  consumer : Option Sleep
  peer : Peer

def view (i j k : ℕ) (x : Sys) : View where
  now := x.now
  slot := x.board k
  started := (x.node j).started
  seq := (x.node j).localConsumerHeartbeatSeq
  consumer := (x.node j).consumer
  peer := (x.node i).peers j

/-- All that an event can do to them; `q` says that the monitor goes round. -/
inductive Moves (t : Transport) (q : Prop) (v : View) : View → Prop
  | same : Moves t q v v
  | elapse (us : ℕ) (h : v.consumer.all (Sleep.lasts (v.now + us)) = true) :
      Moves t q v { v with now := v.now + us }
  | start (intervalMs : ℕ) (h : v.started = false) : Moves t q v { v with
      slot := ⟨true, v.seq + 2, intervalMs⟩
      started := true
      seq := v.seq + 2
      consumer := some ⟨0, v.now⟩ }
  | beat (intervalUs : ℕ) {sl : Sleep} (h : v.consumer = some sl) : Moves t q v { v with
      slot := { v.slot with consumerHeartbeatSeq := v.seq + 1 }
      seq := v.seq + 1
      consumer := some ⟨intervalUs, v.now + intervalUs⟩ }
  | check (hq : q) (h : v.slot.initialized = true) :
      Moves t q v { v with peer := judge v.now (effectiveTimeoutUs t v.slot) v.slot v.peer }
  | config (intervalMs : ℕ) (h : v.started = true) :
      Moves t q v { v with slot := { v.slot with heartbeatIntervalMs := intervalMs } }
  | stop : Moves t q v { v with slot := ⟨false, 0, 0⟩, consumer := none }

section Moves

variable {c} {i j k id idx : ℕ} {x x' : Sys} {t : Transport} {q : Prop}

theorem index_get (hk : c.index j = some k) : c.ids[k]? = some j := by
  obtain ⟨h, he, -⟩ := List.idxOf?_eq_some_iff.mp hk
  rw [List.getElem?_eq_getElem h]
  exact congrArg some (by simpa using he)

theorem index_inj (hk : c.index j = some k) (hid : c.index id = some k) : id = j :=
  Option.some.inj ((index_get hid).symm.trans (index_get hk))

/-- Only the pass for index `k` looks at node `j`. -/
theorem checkPeer_other (hk : c.index j = some k) (hne : idx ≠ k) :
    (checkPeer c i x t idx).peers j = t.peers j := by
  unfold checkPeer
  split
  · rfl
  · rename_i nodeId hid
    split_ifs
    · rfl
    · rfl
    · refine Function.update_of_ne ?_ _ _
      rintro rfl
      have hlt := (List.getElem?_eq_some_iff.mp hid).1
      exact hne ((List.getElem?_inj hlt c.nodup).mp (hid.trans (index_get hk).symm))

theorem checkPeer_config (t : Transport) (idx : ℕ) :
    ∃ ps, checkPeer c i x t idx = { t with peers := ps } := by
  unfold checkPeer
  split
  · exact ⟨t.peers, rfl⟩
  · split_ifs
    · exact ⟨t.peers, rfl⟩
    · exact ⟨t.peers, rfl⟩
    · exact ⟨_, rfl⟩

theorem checkPeer_self (hk : c.index j = some k) :
    (checkPeer c i x t k).peers j = t.peers j ∨ (x.board k).initialized = true ∧
      (checkPeer c i x t k).peers j =
        judge x.now (effectiveTimeoutUs t (x.board k)) (x.board k) (t.peers j) := by
  unfold checkPeer
  rw [index_get hk]
  dsimp only
  split_ifs with h₁ h₂
  · exact .inl rfl
  · exact .inl rfl
  · exact .inr ⟨eq_true_of_ne_false h₂, Function.update_self ..⟩

theorem foldl_checkPeer_other (hk : c.index j = some k) {l : List ℕ} (hl : k ∉ l) :
    (l.foldl (checkPeer c i x) t).peers j = t.peers j := by
  induction l generalizing t with
  | nil => rfl
  | cons idx l ih =>
    rw [List.mem_cons, not_or] at hl
    rw [List.foldl_cons, ih hl.2, checkPeer_other hk (Ne.symm hl.1)]

/-- A whole round looks at node `j` at most once. -/
theorem foldl_checkPeer (hk : c.index j = some k) {l : List ℕ} (hl : l.Nodup) :
    (l.foldl (checkPeer c i x) t).peers j = t.peers j ∨ (x.board k).initialized = true ∧
      (l.foldl (checkPeer c i x) t).peers j =
        judge x.now (effectiveTimeoutUs t (x.board k)) (x.board k) (t.peers j) := by
  induction l generalizing t with
  | nil => exact .inl rfl
  | cons idx l ih =>
    obtain ⟨hidx, hl⟩ := List.nodup_cons.mp hl
    rw [List.foldl_cons]
    by_cases hne : idx = k
    · subst hne
      rw [foldl_checkPeer_other hk hidx]
      exact checkPeer_self hk
    · obtain ⟨ps, hps⟩ := checkPeer_config (c := c) (i := i) (x := x) t idx
      have hpeer : (checkPeer c i x t idx).peers j = t.peers j := checkPeer_other hk hne
      have hwindow : effectiveTimeoutUs (checkPeer c i x t idx) (x.board k) =
          effectiveTimeoutUs t (x.board k) := by
        rw [hps]
        rfl
      rw [← hpeer, ← hwindow]
      exact ih hl

theorem foldl_checkPeer_config (l : List ℕ) :
    ∃ ps, l.foldl (checkPeer c i x) t = { t with peers := ps } := by
  induction l generalizing t with
  | nil => exact ⟨t.peers, rfl⟩
  | cons idx l ih =>
    obtain ⟨ps, hps⟩ := checkPeer_config (c := c) (i := i) (x := x) t idx
    obtain ⟨ps', hps'⟩ := ih (t := checkPeer c i x t idx)
    exact ⟨ps', by rw [List.foldl_cons, hps', hps]⟩

/-- A change to other parts of the nodes is not to be seen. -/
theorem view_setNode (hj : id = j → t.started = (x.node j).started ∧
      t.localConsumerHeartbeatSeq = (x.node j).localConsumerHeartbeatSeq ∧
      t.consumer = (x.node j).consumer) (hi : id = i → t.peers j = (x.node i).peers j) :
    view i j k (x.setNode id t) = view i j k x := by
  have hnode : ∀ a, a ≠ id → (x.setNode id t).node a = x.node a := fun a ha =>
    Function.update_of_ne ha _ _
  have hself : (x.setNode id t).node id = t := Function.update_self ..
  unfold view
  by_cases hji : id = j
  · subst hji
    obtain ⟨h₁, h₂, h₃⟩ := hj rfl
    rw [hself, h₁, h₂, h₃]
    by_cases hii : id = i
    · subst hii
      rw [hself, hi rfl]
      rfl
    · rw [hnode i (Ne.symm hii)]
      rfl
  · rw [hnode j (Ne.symm hji)]
    by_cases hii : id = i
    · subst hii
      rw [hself, hi rfl]
      rfl
    · rw [hnode i (Ne.symm hii)]
      rfl

theorem view_setSlot {b : Slot} (hne : idx ≠ k) : view i j k (x.setSlot idx b) = view i j k x := by
  unfold view
  rw [show (x.setSlot idx b).board k = x.board k from Function.update_of_ne (Ne.symm hne) _ _]
  rfl

theorem view_setSlot_self {b : Slot} :
    view i j k (x.setSlot k b) = { view i j k x with slot := b } := by
  unfold view
  rw [show (x.setSlot k b).board k = b from Function.update_self ..]
  rfl

theorem index_ne (hk : c.index j = some k) (hid : c.index id = some idx) (hne : id ≠ j) :
    idx ≠ k := by
  rintro rfl
  exact hne (index_inj hk hid)

/-- A change to another node's threads or counters is not to be seen. -/
theorem view_setNode_other (hne : id ≠ j) (hpeers : t.peers = (x.node id).peers) :
    view i j k (x.setNode id t) = view i j k x := by
  refine view_setNode (fun h => absurd h hne) ?_
  rintro rfl
  rw [hpeers]

theorem view_refresh_other (hk : c.index j = some k) (hne : id ≠ j) :
    view i j k (refreshLocalConsumerHeartbeat c id x) = view i j k x := by
  unfold refreshLocalConsumerHeartbeat
  split
  · rfl
  · rename_i idx hidx
    exact Eq.trans (view_setSlot (index_ne hk hidx hne)) (view_setNode_other hne rfl)

theorem moves_start (hk : c.index j = some k) (hid : c.index id = some idx)
    (hnot : ¬ (x.node id).started = true) :
    Moves (x.node i) q (view i j k x)
      (view i j k (startReliabilityThreads c id (publishHeartbeat id idx x))) := by
  by_cases hj : id = j
  · subst hj
    obtain rfl : k = idx := Option.some.inj (hk.symm.trans hid)
    have hview : view i id k (startReliabilityThreads c id (publishHeartbeat id k x)) =
        { view i id k x with
          slot := ⟨true, (x.node id).localConsumerHeartbeatSeq + 2,
            (x.node id).heartbeatIntervalUs / usPerMs⟩
          started := true
          seq := (x.node id).localConsumerHeartbeatSeq + 2
          consumer := some ⟨0, x.now⟩ } := by
      simp only [startReliabilityThreads, refreshLocalConsumerHeartbeat, publishHeartbeat, hk, view,
        Sys.setNode, Sys.setSlot, Function.update_self]
      by_cases hi : i = id
      · subst hi
        simp
      · simp [hi]
    rw [hview]
    exact .start _ (eq_false_of_ne_true hnot)
  · have hview : view i j k (startReliabilityThreads c id (publishHeartbeat id idx x)) =
        view i j k x := by
      refine Eq.trans (view_setNode_other hj rfl) (Eq.trans (view_refresh_other hk hj) ?_)
      exact Eq.trans (view_setSlot (index_ne hk hid hj)) (view_setNode_other hj rfl)
    rw [hview]
    exact .same

theorem moves_beat (hk : c.index j = some k) (hdue : due x.now (x.node id).consumer = true) :
    Moves (x.node i) q (view i j k x) (view i j k (heartbeatRound c id x)) := by
  by_cases hj : id = j
  · subst hj
    obtain ⟨sl, hsl, -⟩ := (Option.any_eq_true _ _).mp hdue
    have hview : view i id k (heartbeatRound c id x) = { view i id k x with
        slot := { x.board k with
          consumerHeartbeatSeq := (x.node id).localConsumerHeartbeatSeq + 1 }
        seq := (x.node id).localConsumerHeartbeatSeq + 1
        consumer := some ⟨(x.node id).heartbeatIntervalUs,
          x.now + (x.node id).heartbeatIntervalUs⟩ } := by
      simp only [heartbeatRound, refreshLocalConsumerHeartbeat, hk, view, Sys.setNode, Sys.setSlot,
        Function.update_self]
      by_cases hi : i = id
      · subst hi
        simp
      · simp [hi]
    rw [hview]
    exact .beat _ hsl
  · have hview : view i j k (heartbeatRound c id x) = view i j k x :=
      Eq.trans (view_setNode_other hj rfl) (view_refresh_other hk hj)
    rw [hview]
    exact .same

/-- A round of the monitor changes what the node thinks of its peers, and the monitor's sleep. -/
theorem monitorRound_eq (c : Cluster) (id : ℕ) (x : Sys) :
    ∃ t', monitorRound c id x = x.setNode id t' ∧
    t'.started = (x.node id).started ∧
    t'.localConsumerHeartbeatSeq = (x.node id).localConsumerHeartbeatSeq ∧
    t'.consumer = (x.node id).consumer ∧ t'.peers = ((List.range
      (min c.ids.length maxNodesLimit)).foldl (checkPeer c id x) (x.node id)).peers := by
  obtain ⟨ps, hps⟩ := foldl_checkPeer_config (c := c) (i := id) (x := x) (t := x.node id)
    (List.range (min c.ids.length maxNodesLimit))
  refine ⟨_, rfl, ?_⟩
  rw [hps]
  exact ⟨rfl, rfl, rfl, rfl⟩

theorem moves_check (hk : c.index j = some k) (hq : id = i → q) :
    Moves (x.node i) q (view i j k x) (view i j k (monitorRound c id x)) := by
  obtain ⟨t', hround, hstarted, hseq, hconsumer, hpeers⟩ := monitorRound_eq c id x
  have hown : id = j → t'.started = (x.node j).started ∧
      t'.localConsumerHeartbeatSeq = (x.node j).localConsumerHeartbeatSeq ∧
      t'.consumer = (x.node j).consumer := by
    rintro rfl
    exact ⟨hstarted, hseq, hconsumer⟩
  rw [hround]
  by_cases hi : id = i
  · subst hi
    have hpeer := foldl_checkPeer (i := id) (x := x) (t := x.node id) hk
      (List.nodup_range (n := min c.ids.length maxNodesLimit))
    rw [← hpeers] at hpeer
    rcases hpeer with hpeer | ⟨hinit, hpeer⟩
    · rw [view_setNode hown fun _ => hpeer]
      exact .same
    · have hview : view id j k (x.setNode id t') = { view id j k x with
          peer := judge x.now (effectiveTimeoutUs (x.node id) (x.board k)) (x.board k)
            ((x.node id).peers j) } := by
        rw [← hpeer]
        unfold view Sys.setNode
        by_cases hj : j = id
        · subst hj
          simp [hstarted, hseq, hconsumer]
        · simp [hj]
      rw [hview]
      exact .check (hq rfl) hinit
  · rw [view_setNode hown fun h => absurd h hi]
    exact .same

theorem moves_config {r : Request} (hk : c.index j = some k) :
    Moves (x.node i) q (view i j k x) (view i j k (configHeartbeat c id r x)) := by
  have hnode : view i j k (x.setNode id ((x.node id).withConfig r)) = view i j k x := by
    refine view_setNode ?_ ?_
    · rintro rfl
      exact ⟨rfl, rfl, rfl⟩
    · rintro rfl
      rfl
  unfold configHeartbeat
  split
  · rw [hnode]
    exact .same
  · rename_i idx hidx
    split
    · rename_i hstarted
      by_cases hj : id = j
      · subst hj
        obtain rfl : k = idx := Option.some.inj (hk.symm.trans hidx)
        rw [view_setSlot_self, hnode]
        exact .config _ hstarted
      · rw [view_setSlot (index_ne hk hidx hj), hnode]
        exact .same
    · rw [hnode]
      exact .same

theorem moves_stop (hk : c.index j = some k) (hid : c.index id = some idx) :
    Moves (x.node i) q (view i j k x) (view i j k (stopHeartbeat id idx x)) := by
  unfold stopHeartbeat
  by_cases hj : id = j
  · subst hj
    obtain rfl : k = idx := Option.some.inj (hk.symm.trans hid)
    have hview : view i id k ((x.setNode id { x.node id with consumer := none, monitor := none }).setSlot
        k ⟨false, 0, 0⟩) = { view i id k x with slot := ⟨false, 0, 0⟩, consumer := none } := by
      simp only [view, Sys.setNode, Sys.setSlot, Function.update_self]
      by_cases hi : i = id
      · subst hi
        simp
      · simp [hi]
    rw [hview]
    exact .stop
  · rw [view_setSlot (index_ne hk hid hj)]
    refine Eq.subst (Eq.symm ?_) Moves.same
    exact view_setNode_other hj rfl

/-- Every event is one of the moves. -/
theorem moves_of_step {e : Event} (hk : c.index j = some k) (hs : step c e x = some x') :
    Moves (x.node i) (e = .check i) (view i j k x) (view i j k x') := by
  cases e with
  | elapse us =>
    rw [step] at hs
    split at hs
    · rename_i hidle
      cases hs
      have hj := List.all_eq_true.mp hidle j (List.mem_of_getElem? (index_get hk))
      rw [Transport.idleUntil, Bool.and_eq_true] at hj
      exact .elapse us hj.1
    · cases hs
  | start id =>
    obtain ⟨idx, hidx, hs⟩ := Option.bind_eq_some_iff.mp hs
    split at hs
    · cases hs
    · rename_i hnot
      cases hs
      exact moves_start hk hidx hnot
  | beat id =>
    rw [step] at hs
    split at hs
    · rename_i hdue
      cases hs
      exact moves_beat hk hdue
    · cases hs
  | check id =>
    rw [step] at hs
    split at hs
    · cases hs
      exact moves_check hk fun h => h ▸ rfl
    · cases hs
  | config id r =>
    rw [step] at hs
    split at hs
    · cases hs
      exact moves_config hk
    · cases hs
  | stop id =>
    obtain ⟨idx, hidx, hs⟩ := Option.map_eq_some_iff.mp hs
    cases hs
    exact moves_stop hk hidx

/-! ### The invariant -/

/-- What monitor `i` thinks of a consumer that sleeps as `sl`: it was seen since its last beat, as long
    as the monitor knows that beat. -/
structure Watched (v : View) (sl : Sleep) : Prop where
  started : v.started = true
  now_le : v.now ≤ sl.wake
  wake_le : sl.wake ≤ v.now + sl.asleep
  seq : v.slot.consumerHeartbeatSeq = v.seq
  pos : 0 < v.seq
  known : v.peer.heartbeatSeq ≤ v.seq
  seen : v.peer.heartbeatSeenUs ≤ v.now
  alive : v.peer.heartbeatSeenUs ≠ 0 → v.peer.alive = true
  fresh : v.peer.heartbeatSeq = v.seq → v.peer.heartbeatSeenUs ≠ 0 →
    sl.wake ≤ v.peer.heartbeatSeenUs + sl.asleep

/-- A consumer that has not started has not been seen; one that runs is watched. -/
structure Inv (v : View) : Prop where
  unseen : v.started = false → v.slot.initialized = false ∧ v.peer.heartbeatSeq = 0 ∧
    v.peer.heartbeatSeenUs = 0
  running : ∀ sl, v.consumer = some sl → Watched v sl

/-- The interval slept on is not longer than the longest of the three. -/
def Covers (t : Transport) (v : View) : Prop :=
  ∀ sl, v.consumer = some sl → sl.asleep ≤ effectiveTimeoutUs t v.slot

theorem Watched.judge {v : View} {sl : Sleep} (h : Watched v sl) {w : ℕ}
    (hcover : sl.asleep ≤ w) : Watched { v with peer := judge v.now w v.slot v.peer } sl := by
  have hseq := h.seq
  have hpos := h.pos
  unfold Heartbeat.judge
  split
  · exact ⟨h.started, h.now_le, h.wake_le, h.seq, h.pos, hseq.le, le_rfl, fun _ => rfl,
      fun _ _ => h.wake_le⟩
  · rename_i hsame
    have hsame : v.peer.heartbeatSeq = v.seq := by
      by_contra hne
      exact hsame ⟨by omega, by omega⟩
    refine ⟨h.started, h.now_le, h.wake_le, h.seq, h.pos, h.known, h.seen, fun hne => ?_, h.fresh⟩
    -- the last beat is known, so the monitor has seen it at most one sleep ago
    have hne : v.peer.heartbeatSeenUs ≠ 0 := hne
    have hfresh := h.fresh hsame hne
    have hseen := h.seen
    have hle := h.now_le
    exact decide_eq_true ⟨hne, hseen, by omega⟩

theorem Inv.moves {v v' : View} (h : Inv v) (hm : Moves t q v v') (hcover : q → Covers t v) :
    Inv v' := by
  cases hm with
  | same => exact h
  | elapse us hlasts =>
    refine ⟨h.unseen, fun sl hsl => ?_⟩
    have hw := h.running sl hsl
    have hsl : v.consumer = some sl := hsl
    have hwake : v.now + us ≤ sl.wake := by
      rw [hsl] at hlasts
      simpa [Sleep.lasts] using hlasts
    refine ⟨hw.started, hwake, ?_, hw.seq, hw.pos, hw.known, ?_, hw.alive, hw.fresh⟩
    · have := hw.wake_le
      show sl.wake ≤ v.now + us + sl.asleep
      omega
    · have := hw.seen
      show v.peer.heartbeatSeenUs ≤ v.now + us
      omega
  | start intervalMs hnot =>
    obtain ⟨-, hseq, hseen⟩ := h.unseen hnot
    refine ⟨fun hfalse => absurd hfalse (by simp), fun sl hsl => ?_⟩
    cases hsl
    refine ⟨rfl, le_rfl, le_rfl, rfl, Nat.succ_pos _, ?_, ?_, fun hne => absurd hseen hne,
      fun _ hne => absurd hseen hne⟩
    · show v.peer.heartbeatSeq ≤ v.seq + 2
      omega
    · show v.peer.heartbeatSeenUs ≤ v.now
      omega
  | beat intervalUs hsl =>
    have hw := h.running _ hsl
    refine ⟨fun hfalse => absurd (hw.started.symm.trans hfalse) (by simp), fun sl' hsl' => ?_⟩
    cases hsl'
    have hknown := hw.known
    refine ⟨hw.started, Nat.le_add_right _ _, le_rfl, rfl, Nat.succ_pos _, ?_, hw.seen, hw.alive,
      fun heq => ?_⟩
    · show v.peer.heartbeatSeq ≤ v.seq + 1
      omega
    · have heq : v.peer.heartbeatSeq = v.seq + 1 := heq
      omega
  | check hq hinit =>
    refine ⟨fun hfalse => ?_, fun sl hsl => (h.running sl hsl).judge (hcover hq sl hsl)⟩
    have := (h.unseen hfalse).1
    rw [hinit] at this
    cases this
  | config intervalMs hstarted =>
    refine ⟨fun hfalse => absurd (hstarted.symm.trans hfalse) (by simp), fun sl hsl => ?_⟩
    have hw := h.running sl hsl
    exact ⟨hw.started, hw.now_le, hw.wake_le, hw.seq, hw.pos, hw.known, hw.seen, hw.alive, hw.fresh⟩
  | stop =>
    refine ⟨fun hfalse => ⟨rfl, (h.unseen hfalse).2⟩, fun sl hsl => ?_⟩
    cases hsl

end Moves

/-! ### Runs -/

/-- When monitor `i` goes round, consumer `j` sleeps no longer than one of the three: the timeout of
    `i`, three intervals as published by `j`, two check intervals of `i`. -/
def InWindow (i j : ℕ) (e : Event) (x : Sys) : Prop :=
  e = .check i → ∀ k sl, c.index j = some k → (x.node j).consumer = some sl →
    sl.asleep ≤ (x.node i).heartbeatTimeoutUs ∨
    sl.asleep ≤ 3 * ((x.board k).heartbeatIntervalMs * usPerMs) ∨
    sl.asleep ≤ 2 * (x.node i).heartbeatCheckIntervalUs

variable {c} {i j k : ℕ} {x : Sys} {e : Event}

theorem InWindow.covers (h : InWindow c i j e x) (hk : c.index j = some k) (he : e = .check i) :
    Covers (x.node i) (view i j k x) := by
  intro sl hsl
  have hw := h he k sl hk hsl
  show sl.asleep ≤ effectiveTimeoutUs (x.node i) (x.board k)
  unfold effectiveTimeoutUs
  dsimp only
  rw [le_max_iff, le_max_iff]
  rcases hw with hw | hw | hw
  · exact .inl hw
  · refine .inr (.inl ?_)
    split_ifs with hzero
    · rw [hzero] at hw
      omega
    · unfold usPerMs at *
      omega
  · exact .inr (.inr (by omega))

theorem inv_of_start (h : Start x) : Inv (view i j k x) := by
  unfold view
  rw [h.node i, h.node j]
  exact ⟨fun _ => ⟨h.board k, rfl, rfl⟩, fun sl hsl => nomatch hsl⟩

theorem consumer_setNode {id : ℕ} {t : Transport} (hx : (x.node j).consumer = none)
    (ht : id = j → t.consumer = none) : ((x.setNode id t).node j).consumer = none := by
  by_cases hj : j = id
  · subst hj
    rw [show (x.setNode j t).node j = t from Function.update_self ..]
    exact ht rfl
  · rw [show (x.setNode id t).node j = x.node j from Function.update_of_ne hj _ _]
    exact hx

/-- A node without an index never runs. -/
theorem consumer_none (hj : c.index j = none) {ok : Event → Sys → Prop}
    (h : Events.Reach (step c) ok Start x) : (x.node j).consumer = none := by
  have hne : ∀ {id idx}, c.index id = some idx → id ≠ j := by
    rintro id idx hid rfl
    rw [hj] at hid
    cases hid
  refine h.invariant (J := fun x => (x.node j).consumer = none) (fun s hs => ?_) ?_
  · rw [hs.node j]
    rfl
  rintro e s s' hs - hstep
  have hrefresh : ∀ id (y : Sys), (y.node j).consumer = none →
      ((refreshLocalConsumerHeartbeat c id y).node j).consumer = none := by
    intro id y hy
    unfold refreshLocalConsumerHeartbeat
    split
    · exact hy
    · exact consumer_setNode hy (by rintro rfl; exact hy)
  cases e with
  | elapse us =>
    rw [step] at hstep
    split at hstep
    · cases hstep
      exact hs
    · cases hstep
  | start id =>
    obtain ⟨idx, hidx, hstep⟩ := Option.bind_eq_some_iff.mp hstep
    split at hstep
    · cases hstep
    · cases hstep
      refine consumer_setNode (hrefresh _ _ ?_) fun h => absurd h (hne hidx)
      exact consumer_setNode hs fun h => absurd h (hne hidx)
  | beat id =>
    rw [step] at hstep
    split at hstep
    · rename_i hdue
      cases hstep
      refine consumer_setNode (hrefresh _ _ hs) ?_
      rintro rfl
      rw [hs] at hdue
      cases hdue
    · cases hstep
  | check id =>
    rw [step] at hstep
    split at hstep
    · cases hstep
      obtain ⟨t', hround, -, -, hconsumer, -⟩ := monitorRound_eq c id s
      rw [hround]
      exact consumer_setNode hs (by rintro rfl; exact hconsumer.trans hs)
    · cases hstep
  | config id r =>
    rw [step] at hstep
    split at hstep
    · cases hstep
      have hconfig : ((s.setNode id ((s.node id).withConfig r)).node j).consumer = none :=
        consumer_setNode hs (by rintro rfl; exact hs)
      unfold configHeartbeat
      split
      · exact hconfig
      · split
        · exact hconfig
        · exact hconfig
    · cases hstep
  | stop id =>
    obtain ⟨idx, hidx, hstep⟩ := Option.map_eq_some_iff.mp hstep
    cases hstep
    exact consumer_setNode hs fun _ => rfl

/-- As long as every round of the monitor finds the consumer asleep on an interval within the window,
    a consumer that runs and has been seen is alive. -/
theorem running_consumer_alive (c : Cluster) (i j : ℕ) (x : Sys)
    (hx : Events.Reach (step c) (InWindow c i j) Start x)
    (hrunning : (x.node j).consumer.isSome = true)
    (hseen : ((x.node i).peers j).heartbeatSeenUs ≠ 0) : ((x.node i).peers j).alive = true := by
  obtain ⟨sl, hsl⟩ := Option.isSome_iff_exists.mp hrunning
  cases hk : c.index j with
  | none =>
    rw [consumer_none hk hx] at hsl
    cases hsl
  | some k =>
    have hinv : Inv (view i j k x) := by
      refine hx.invariant (J := fun x => Inv (view i j k x)) (fun s hs => inv_of_start hs) ?_
      intro e s s' hinv hok hs
      exact hinv.moves (moves_of_step hk hs) fun he => hok.covers hk he
    exact (hinv.running sl hsl).alive hseen

/-- The condition, computed. -/
def inWindow (c : Cluster) (i j : ℕ) : Event → Sys → Bool
  | .check id, x => decide (id ≠ i) || (c.index j).all fun k => (x.node j).consumer.all fun sl =>
    decide (sl.asleep ≤ (x.node i).heartbeatTimeoutUs ∨
      sl.asleep ≤ 3 * ((x.board k).heartbeatIntervalMs * usPerMs) ∨
      sl.asleep ≤ 2 * (x.node i).heartbeatCheckIntervalUs)
  | _, _ => true

theorem inWindow_sound (e : Event) (x : Sys) (h : inWindow c i j e x = true) :
    InWindow c i j e x := by
  rintro rfl k sl hk hsl
  simp only [inWindow, hk, hsl, Option.all_some, Bool.or_eq_true, decide_eq_true_eq, ne_eq,
    not_true_eq_false, false_or] at h
  exact h

theorem nodup_twoNodes : [0, 1].Nodup := by decide

def twoNodes : Cluster := ⟨[0, 1], nodup_twoNodes⟩

/-- One microsecond after the epoch. -/
def fresh : Sys := ⟨1, fun _ => ⟨false, 0, 0⟩, fun _ => .init⟩

theorem start_fresh : Start fresh := ⟨Nat.one_pos, fun _ => rfl, fun _ => rfl⟩

/-- Both nodes start, node `1` beats, and node `0` sees it. -/
def sighting : List Event := [.start 0, .start 1, .beat 0, .beat 1, .check 1, .check 0]

theorem running_consumer_alive_sighted : ∃ x, (Events.Reach (step twoNodes) (InWindow twoNodes 0 1)
    Start x ∧ (x.node 1).consumer.isSome = true ∧ ((x.node 0).peers 1).heartbeatSeenUs ≠ 0) ∧
      ((x.node 0).peers 1).alive = true := by
  obtain ⟨x, hx, hrunning, hseen⟩ := Events.reach_of_play (step twoNodes) (InWindow twoNodes 0 1)
    (inWindow twoNodes 0 1) inWindow_sound start_fresh
    (sighting ++ [.elapse 100000, .beat 0, .check 0])
    (fun x : Sys => (x.node 1).consumer.isSome = true ∧
      ((x.node 0).peers 1).heartbeatSeenUs ≠ 0) (by decide +kernel)
  exact ⟨x, ⟨hx, hrunning, hseen⟩, running_consumer_alive twoNodes 0 1 x hx hrunning hseen⟩

/-- Node `1` goes to sleep for ten seconds and is then told to beat every 100 milliseconds; node `0`
    gives it 300 milliseconds and declares it dead. -/
theorem consumer_declared_dead : ∃ x, Events.Reach (step twoNodes) (fun _ _ => True) Start x ∧
    (x.node 1).consumer.isSome = true ∧ ((x.node 0).peers 1).heartbeatSeenUs ≠ 0 ∧
    ((x.node 0).peers 1).alive = false :=
  Events.reach_of_play (step twoNodes) (fun _ _ => True) (fun _ _ => true) (fun _ _ _ => trivial)
    start_fresh ([.config 0 ⟨100, 100, 200⟩, .config 1 ⟨10000, 10000, 20000⟩] ++ sighting
      ++ [.config 1 ⟨100, 100, 200⟩] ++ (List.replicate 4 [.elapse 100000, .beat 0, .check 0]).flatten)
    (fun x : Sys => (x.node 1).consumer.isSome = true ∧ ((x.node 0).peers 1).heartbeatSeenUs ≠ 0 ∧
      ((x.node 0).peers 1).alive = false) (by decide +kernel)

end Heartbeat

end UbsAtomic
