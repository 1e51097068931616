import UbsAtomic.Conc.Part
import UbsAtomic.Ring.Enqueue
import UbsAtomic.Ring.Regions

/-! The dispatcher (`poll_and_dispatch_once`): one thread that empties all rings of a node.

        local_active_priorities_      0    5    2    7        the lock ring, then the descriptors
                                      │    │    │    │        in the order they were given
        rings                         ▯    ▮▮   ▮    ▯
        scan                          ───▶ takes one message and starts again from the left

    The scan knows nothing of priorities: a ring is more urgent if it stands further left. Whether
    that is the order of the priorities is up to whoever wrote the configuration. -/

namespace UbsAtomic

open Conc Conc.Prog

namespace Dispatch

open UbsAtomic.Ring (Conf dequeue)

open Regions (Placed Local createLocalRings placeUserRings)

open Layout (RingDesc)

/-! ### The code -/

/-- A call of `dispatch_internal`: the ring and the bytes, and what the rings were then. -/
structure Handed where
  priority : ℕ
  data : List UInt8
  rings : ℕ → Ring.Mem

/-- The rings of the node, and what has been handed to `dispatch_internal`. -/
structure Mem where
  rings : ℕ → Ring.Mem
  handed : List Handed

abbrev Call := Prog Mem Unit

/-- `local_active_priorities_` and `local_rings_`, where `none` is the null pointer. -/
structure Node where
  activePriorities : List ℕ
  localRings : ℕ → Option Conf

def ringAt (p : ℕ) : Place Mem Ring.Mem :=
  ⟨fun s => s.rings p, fun v s => { s with rings := Function.update s.rings p v }⟩

/-- `dispatch_internal` is called. -/
def dispatchInternal (p : ℕ) (data : List UInt8) : Call Unit :=
  .act () (fun s _ => some ({ s with handed := s.handed ++ [⟨p, data, s.rings⟩] }, ())) .ret

def maxBatchPerPoll : ℕ := 8192

/-- What `dequeue` has put into the receive buffer. -/
def received : Option (ℕ × List UInt8) → List UInt8
  | none => []
  | some (_, bytes) => bytes

/-- One round of the scan, with `current_idx` and `total_processed`. -/
def pollRound (d : Node) (bufferSize : ℕ) (st : ℕ × ℕ) : Call (ℕ × ℕ ⊕ ℕ) :=
  match d.activePriorities[st.1]? with
  | none => .ret (.inr st.2)
  | some prio =>
    if st.2 ≥ maxBatchPerPoll then .ret (.inr st.2)
    else
      match d.localRings prio with
      | none => .ret (.inl (st.1 + 1, st.2))
      | some cf => do
        let got ← (dequeue cf bufferSize).within (ringAt prio) ()
        if (received got).length > 0 then
          dispatchInternal prio (received got)
          return .inl (0, st.2 + 1)
        return .inl (st.1 + 1, st.2)

/-- `poll_and_dispatch_once` with a receive buffer of the given size. -/
def pollAndDispatchOnce (d : Node) (bufferSize : ℕ) : Call ℕ := loop (pollRound d bufferSize) (0, 0)

/-- What the constructor of a ring keeps of its arguments. -/
def confOf (p : Placed) : Conf :=
  ⟨p.capacity.log2, u32 p.maxMsgSize, Nat.mod_lt _ (by norm_num)⟩

/-- The node after `create_local_rings`. -/
def Node.ofLocal (l : Local) : Node where
  activePriorities := l.rings.map Placed.priority
  localRings p := (l.rings.reverse.find? fun r => r.priority = p).map confOf

/-! ### What it should do -/

/-- The ring holds `ms`, all committed and well formed, and nothing is committed behind them. -/
structure Holds (cf : Conf) (s : Ring.Mem) (ms : List Ring.Message) : Prop where
  tail : s.ring.tail = s.ring.head + ms.length
  room : ms.length ≤ cf.capacity
  slot : ∀ i m, ms[i]? = some m →
    (s.ring.entries (cf.index (s.ring.head + i))).readySeq = s.ring.head + i + 1 ∧
    Ring.Written (s.ring.entries (cf.index (s.ring.head + i))).data m m.bytes.length ∧ m.Fits cf
  last : (s.ring.entries (cf.index s.ring.tail)).readySeq ≠ s.ring.tail + 1

/-- A committed message is in the ring. -/
def Waiting (cf : Conf) (s : Ring.Mem) : Prop :=
  ∃ k, s.ring.head ≤ k ∧ k < s.ring.tail ∧ (s.ring.entries (cf.index k)).readySeq = k + 1

/-- The rings hold `contents`. -/
structure Loaded (d : Node) (rings : ℕ → Ring.Mem) (contents : ℕ → List Ring.Message) : Prop where
  ring : ∀ p cf, d.localRings p = some cf → Holds cf (rings p) (contents p)
  null : ∀ p, d.localRings p = none → contents p = []

/-- How many messages there are. -/
def pending (d : Node) (contents : ℕ → List Ring.Message) : ℕ :=
  (d.activePriorities.map fun p => (contents p).length).sum

/-- Every message was handed over once, those of a ring in order, and never while a ring of a
    smaller priority number had one. -/
structure Strict (d : Node) (contents : ℕ → List Ring.Message) (handed : List Handed) : Prop where
  known : ∀ e ∈ handed, e.priority ∈ d.activePriorities
  once : ∀ p ∈ d.activePriorities,
    (handed.filter fun e => e.priority = p).map Handed.data = (contents p).map Ring.Message.bytes
  order : ∀ e ∈ handed, ∀ q ∈ d.activePriorities, q < e.priority →
    ∀ cf, d.localRings q = some cf → ¬ Waiting cf (e.rings q)

/-- The call comes back, and however it came back the messages were handed over as they should. -/
structure Dispatches (d : Node) (bufferSize : ℕ) (s : Mem) (contents : ℕ → List Ring.Message) :
    Prop where
  returns : Total (· = 0) (fun _ _ => True) (pollAndDispatchOnce d bufferSize) s
  strict : ∀ n s', Run (pollAndDispatchOnce d bufferSize) s n s' → Strict d contents s'.handed

/-! ### One dequeue -/

section Dequeue

variable {cf : Conf} {cap : ℕ} {s s' : Ring.Mem} {m : Ring.Message} {ms : List Ring.Message}
  {r : Option (ℕ × List UInt8)}

theorem run_copyOut {i off count : ℕ} {bs : List UInt8} (h : Run (Ring.copyOut i off count) s bs s') :
    bs = (List.range' off count).map (s.ring.entries i).data ∧ s' = s := by
  induction count generalizing off bs s' with
  | zero =>
    cases h
    exact ⟨rfl, rfl⟩
  | succ count ih =>
    obtain ⟨bs', s₁, h₁, h₂⟩ := (Run.load h).of_bind
    obtain ⟨rfl, rfl⟩ := ih h₁
    cases h₂
    exact ⟨rfl, rfl⟩

/-- The bytes that are copied are those of the message. -/
theorem range_written {data : ℕ → UInt8} (h : Ring.Written data m m.bytes.length) {n : ℕ}
    (hn : n ≤ m.bytes.length) : (List.range' 0 n).map data = m.bytes.take n := by
  refine List.ext_getElem? fun i => ?_
  by_cases hi : i < n
  · rw [List.getElem?_map, List.getElem?_range' (by omega), List.getElem?_take_of_lt hi,
      ← h i (by omega)]
    simp
  · rw [List.getElem?_eq_none (by simp; omega), List.getElem?_eq_none (by simp; omega)]

/-- A dequeue from an empty ring. -/
theorem run_dequeue_nil (h : Holds cf s []) (hrun : Run (dequeue cf cap) s r s') :
    r = none ∧ s' = s := by
  have htail : s.ring.tail = s.ring.head := h.tail
  have hlast : (Ring.readySeqAt (cf.index (Ring.headAt.get s))).get s ≠ Ring.headAt.get s + 1 := by
    show (s.ring.entries (cf.index s.ring.head)).readySeq ≠ s.ring.head + 1
    rw [← htail]
    exact h.last
  have hrun := hrun.load.load
  rw [if_pos hlast] at hrun
  obtain ⟨probe, hrun⟩ := hrun.choose
  split at hrun
  · obtain ⟨b, s₁, hskip, hrun⟩ := hrun.of_bind
    have hskip := hskip.load
    rw [if_pos (show Ring.tailAt.get s ≤ Ring.headAt.get s from htail.le)] at hskip
    cases hskip
    cases hrun
    exact ⟨rfl, rfl⟩
  · cases hrun
    exact ⟨rfl, rfl⟩

/-- The first message has been taken out. -/
def taken (cf : Conf) (s : Ring.Mem) : Ring.Mem :=
  Ring.headAt.set (s.ring.head + 1) ((Ring.readySeqAt (cf.index s.ring.head)).set 0 s)

theorem Holds.taken (h : Holds cf s (m :: ms)) : Holds cf (taken cf s) ms := by
  have htail : s.ring.tail = s.ring.head + (ms.length + 1) := h.tail
  have hroom : ms.length + 1 ≤ cf.capacity := h.room
  have hother : ∀ k, cf.index k ≠ cf.index s.ring.head →
      (Dispatch.taken cf s).ring.entries (cf.index k) = s.ring.entries (cf.index k) :=
    fun k hk => Function.update_of_ne hk _ _
  refine ⟨?_, by omega, ?_, ?_⟩
  · show s.ring.tail = s.ring.head + 1 + ms.length
    omega
  · intro i m' hm'
    have hi : i < ms.length := (List.getElem?_eq_some_iff.mp hm').1
    have hne : cf.index (s.ring.head + 1 + i) ≠ cf.index s.ring.head := fun he => by
      have := Ring.index_inj (by omega) (by omega) he
      omega
    show ((Dispatch.taken cf s).ring.entries (cf.index (s.ring.head + 1 + i))).readySeq =
      s.ring.head + 1 + i + 1 ∧ Ring.Written ((Dispatch.taken cf s).ring.entries
        (cf.index (s.ring.head + 1 + i))).data m' m'.bytes.length ∧ m'.Fits cf
    rw [hother _ hne, show s.ring.head + 1 + i = s.ring.head + (i + 1) by omega]
    exact h.slot (i + 1) m' hm'
  · show ((Dispatch.taken cf s).ring.entries (cf.index s.ring.tail)).readySeq ≠ s.ring.tail + 1
    by_cases he : cf.index s.ring.tail = cf.index s.ring.head
    · rw [he]
      have hzero : ((Dispatch.taken cf s).ring.entries (cf.index s.ring.head)).readySeq = 0 := by
        simp [Dispatch.taken, Ring.headAt, Ring.readySeqAt, Ring.field, Ring.RingBuffer.setEntry]
      omega
    · rw [hother _ he]
      exact h.last

/-- Holding on to a ring that only flow control has touched. -/
theorem Holds.same {ms : List Ring.Message} (h : Holds cf s ms) (hs : Ring.SameRing s s') :
    Holds cf s' ms := by
  refine ⟨?_, h.room, ?_, ?_⟩
  · rw [hs.tail, hs.head]
    exact h.tail
  · rw [hs.head, hs.entries]
    exact h.slot
  · rw [hs.tail, hs.entries]
    exact h.last

/-- A dequeue takes the first message, or as much of it as the buffer has room for. -/
theorem run_dequeue_cons (h : Holds cf s (m :: ms)) (hrun : Run (dequeue cf cap) s r s') :
    received r = m.bytes.take cap ∧ Holds cf s' ms := by
  obtain ⟨hready, hwritten, hfits⟩ := h.slot 0 m rfl
  rw [Nat.add_zero] at hready hwritten
  have hlen := Ring.length_bytes m
  have hbody : (Ring.bodyLengthAt (cf.index (Ring.headAt.get s))).get s = m.body.length :=
    hwritten.bodyLength
  have hfits : Ring.msgHeaderLen + m.body.length ≤ cf.maxMsgSize := hfits
  have hmax := cf.maxMsgSize_lt
  have hrun := hrun.load.load
  rw [if_neg (show ¬ (Ring.readySeqAt (cf.index (Ring.headAt.get s))).get s ≠ Ring.headAt.get s + 1
    from not_not_intro hready)] at hrun
  have hrun := hrun.load
  rw [hbody, if_neg (by omega)] at hrun
  obtain ⟨bytes, s₁, hcopy, hrun⟩ := hrun.of_bind
  obtain ⟨hbytes, hs₁⟩ := run_copyOut hcopy
  rw [hs₁] at hrun
  obtain ⟨_, s₂, hnotice, hrun⟩ := hrun.store.store.of_bind
  cases hrun
  have hquiet : Quiet (fun s s' => Holds cf s ms → Holds cf s' ms) (fun _ => True)
      (Ring.noticeDepth cf) :=
    (Ring.flow_noticeDepth cf).mono (fun _ _ hs h => h.same hs) fun _ _ => trivial
  refine ⟨hbytes.trans ?_, hnotice.quiet (fun _ h => h) (fun h h' hs => h' (h hs)) hquiet h.taken⟩
  split
  · exact range_written hwritten (by omega)
  · rw [u32, Nat.mod_eq_of_lt (by omega), List.take_of_length_le (by omega), ← hlen]
    exact (range_written hwritten le_rfl).trans (List.take_length ..)

theorem total_copyOut (i off count : ℕ) :
    Total (· = 0) (fun _ _ => True) (Ring.copyOut i off count) s := by
  induction count generalizing off with
  | zero => exact .ret trivial
  | succ count ih => exact .bind (total_load rfl (.bind ((ih (off + 1)).mono fun _ _ _ => .ret trivial)))

/-- A dequeue comes back, whatever is in the ring. -/
theorem total_dequeue : Total (· = 0) (fun _ _ => True) (dequeue cf cap) s := by
  refine .bind (total_load rfl (.bind (total_load rfl ?_)))
  split
  · refine .bind (total_choose rfl ?_)
    rintro _ rfl
    exact .ret trivial
  · refine .bind (total_load rfl ?_)
    split
    · exact .bind (total_store rfl (.bind (total_store rfl (.ret trivial))))
    · refine .bind (.of_run (total_copyOut _ _ _) fun bytes s₁ _ => ?_)
      refine .bind (total_store rfl (.bind (total_store rfl (.bind ?_))))
      refine .bind (total_load rfl ?_)
      split
      · refine .bind (.bind (total_load rfl (.bind (total_load rfl (.ret ?_)))))
        refine .bind ((Ring.total_sampleFlowState _).mono fun _ _ _ => ?_)
        exact .ret (.ret trivial)
      · exact .ret (.ret trivial)

end Dequeue

/-! ### One round -/

section Round

variable {d : Node} {bufferSize : ℕ} {st : ℕ × ℕ} {s s' : Mem} {r : ℕ × ℕ ⊕ ℕ} {p : ℕ}
  {contents rest : ℕ → List Ring.Message}

theorem lawful_ringAt (p : ℕ) : (ringAt p).Lawful where
  get_set v s := Function.update_self ..
  set_get s := by simp [ringAt]
  set_set v w s := by simp [ringAt]

/-- What a round does. -/
inductive Round (d : Node) (bufferSize : ℕ) (rest : ℕ → List Ring.Message) (st : ℕ × ℕ) (s : Mem) :
    ℕ × ℕ ⊕ ℕ → Mem → Prop
  | stop (h : d.activePriorities[st.1]? = none ∨ maxBatchPerPoll ≤ st.2) :
      Round d bufferSize rest st s (.inr st.2) s
  | next {p : ℕ} (hp : d.activePriorities[st.1]? = some p) (hempty : rest p = []) :
      Round d bufferSize rest st s (.inl (st.1 + 1, st.2)) s
  | hand {p : ℕ} {cf : Conf} {m : Ring.Message} {ms : List Ring.Message} {v : Ring.Mem}
      (hp : d.activePriorities[st.1]? = some p) (hcf : d.localRings p = some cf)
      (hrest : rest p = m :: ms) (hv : Holds cf v ms) (hbuffer : 0 < bufferSize) :
      Round d bufferSize rest st s (.inl (0, st.2 + 1)) ⟨Function.update s.rings p v,
        s.handed ++ [⟨p, m.bytes.take bufferSize, Function.update s.rings p v⟩]⟩
  | lose {p : ℕ} {cf : Conf} {m : Ring.Message} {ms : List Ring.Message} {v : Ring.Mem}
      (hp : d.activePriorities[st.1]? = some p) (hcf : d.localRings p = some cf)
      (hrest : rest p = m :: ms) (hv : Holds cf v ms) (hbuffer : bufferSize = 0) :
      Round d bufferSize rest st s (.inl (st.1 + 1, st.2)) ⟨Function.update s.rings p v, s.handed⟩

theorem bytes_pos (m : Ring.Message) : 0 < m.bytes.length := by
  rw [Ring.length_bytes, Ring.msgHeaderLen]
  omega

theorem round_of_run (h : Loaded d s.rings rest) (hrun : Run (pollRound d bufferSize st) s r s') :
    Round d bufferSize rest st s r s' := by
  unfold pollRound at hrun
  split at hrun
  · cases hrun
    exact .stop (.inl ‹_›)
  · rename_i p hp
    split at hrun
    · cases hrun
      exact .stop (.inr ‹_›)
    split at hrun
    · cases hrun
      exact .next hp (h.null p ‹_›)
    rename_i cf hcf
    obtain ⟨got, s₁, hgot, hrun⟩ := hrun.of_bind
    obtain ⟨v, hv, rfl⟩ := (On.within _).run (lawful_ringAt p) hgot
    cases hrest : rest p with
    | nil =>
      have hempty := h.ring p cf hcf
      rw [hrest] at hempty
      obtain ⟨rfl, rfl⟩ := run_dequeue_nil hempty hv
      cases hrun
      have hsame : (ringAt p).set (s.rings p) s = s := (lawful_ringAt p).set_get s
      rw [hsame]
      exact .next hp hrest
    | cons m ms =>
      have hfull := h.ring p cf hcf
      rw [hrest] at hfull
      obtain ⟨hgot, hv⟩ := run_dequeue_cons hfull hv
      have hlen := bytes_pos m
      rw [hgot, List.length_take] at hrun
      split at hrun
      · cases hrun with
        | act hf hrun =>
          cases hf
          cases hrun
          exact .hand hp hcf hrest hv (by omega)
      · cases hrun
        exact .lose hp hcf hrest hv (by omega)

theorem total_pollRound : Total (· = 0) (fun _ _ => True) (pollRound d bufferSize st) s := by
  unfold pollRound
  split
  · exact .ret trivial
  split
  · exact .ret trivial
  split
  · exact .ret trivial
  refine .bind (((On.within _).total (lawful_ringAt _) total_dequeue s rfl).mono ?_)
  rintro got s' -
  split
  · exact .act ⟨0, rfl, rfl⟩ fun _ _ _ _ hf => by
      cases hf
      exact .ret trivial
  · exact .ret trivial

/-- Taking a message out of one ring leaves the others as they are. -/
theorem Loaded.update (h : Loaded d s.rings rest) {cf : Conf} {v : Ring.Mem}
    {ms : List Ring.Message} (hcf : d.localRings p = some cf) (hv : Holds cf v ms) :
    Loaded d (Function.update s.rings p v) (Function.update rest p ms) := by
  refine ⟨fun q cf' hq => ?_, fun q hq => ?_⟩
  · by_cases hqp : q = p
    · subst hqp
      rw [Function.update_self, Function.update_self]
      rw [hcf] at hq
      cases hq
      exact hv
    · rw [Function.update_of_ne hqp, Function.update_of_ne hqp]
      exact h.ring q cf' hq
  · have hqp : q ≠ p := by
      rintro rfl
      rw [hcf] at hq
      cases hq
    rw [Function.update_of_ne hqp]
    exact h.null q hq

/-- After any round the rings hold something. -/
theorem Round.loaded (hr : Round d bufferSize rest st s r s') (h : Loaded d s.rings rest) :
    ∃ rest', Loaded d s'.rings rest' := by
  cases hr with
  | stop _ => exact ⟨rest, h⟩
  | next _ _ => exact ⟨rest, h⟩
  | hand _ hcf _ hv _ => exact ⟨_, h.update hcf hv⟩
  | lose _ hcf _ hv _ => exact ⟨_, h.update hcf hv⟩

/-! ### The call comes back -/

/-- How many tickets are between the heads and the tails. -/
def left (d : Node) (rings : ℕ → Ring.Mem) : ℕ :=
  (d.activePriorities.map fun p => (rings p).ring.tail - (rings p).ring.head).sum

theorem left_update (h : Loaded d s.rings rest) {cf : Conf} {v : Ring.Mem} {m : Ring.Message}
    {ms : List Ring.Message} (hp : p ∈ d.activePriorities) (hcf : d.localRings p = some cf)
    (hrest : rest p = m :: ms) (hv : Holds cf v ms) :
    left d (Function.update s.rings p v) < left d s.rings := by
  have hbefore := (h.ring p cf hcf).tail
  have hafter := hv.tail
  rw [hrest, List.length_cons] at hbefore
  refine List.sum_lt_sum _ _ (fun q _ => ?_) ⟨p, hp, ?_⟩
  · by_cases hq : q = p
    · subst hq
      rw [Function.update_self]
      omega
    · rw [Function.update_of_ne hq]
  · rw [Function.update_self]
    omega

/-- `poll_and_dispatch_once` comes back: each round takes a message or moves on. -/
theorem poll_returns (h : Loaded d s.rings contents) :
    Total (· = 0) (fun _ _ => True) (pollAndDispatchOnce d bufferSize) s := by
  refine total_loop_down (fun _ s => ∃ rest, Loaded d s.rings rest)
    (fun st s => left d s.rings * (d.activePriorities.length + 1) +
      (d.activePriorities.length - st.1)) (fun _ _ _ => total_pollRound) ?_ ⟨contents, h⟩
  rintro st st' s s' ⟨rest, h⟩ hrun
  have hround := round_of_run h hrun
  refine ⟨hround.loaded h, ?_⟩
  cases hround with
  | next hp _ =>
    have := (List.getElem?_eq_some_iff.mp hp).1
    dsimp only
    omega
  | hand hp hcf hrest hv _ =>
    have hlt := Nat.mul_le_mul_right (d.activePriorities.length + 1)
      (left_update h (List.mem_of_getElem? hp) hcf hrest hv)
    rw [Nat.succ_mul] at hlt
    dsimp only
    omega
  | lose hp hcf hrest hv _ =>
    have hlt := Nat.mul_le_mul_right (d.activePriorities.length + 1)
      (left_update h (List.mem_of_getElem? hp) hcf hrest hv)
    rw [Nat.succ_mul] at hlt
    dsimp only
    omega

/-! ### What is handed over -/

/-- The messages of some rings, one ring after the other, as far as they fit into the buffer. -/
def script (bufferSize : ℕ) (contents : ℕ → List Ring.Message) (ps : List ℕ) :
    List (ℕ × List UInt8) :=
  ps.flatMap fun p => (contents p).map fun m => (p, m.bytes.take bufferSize)

theorem script_split (pre post : List ℕ) : script bufferSize rest (pre ++ p :: post) =
    script bufferSize rest pre ++ ((rest p).map (fun m => (p, m.bytes.take bufferSize)) ++
      script bufferSize rest post) := by
  rw [script, List.flatMap_append, List.flatMap_cons]
  rfl

theorem script_update {ms : List Ring.Message} {ps : List ℕ} (hp : p ∉ ps) :
    script bufferSize (Function.update rest p ms) ps = script bufferSize rest ps := by
  refine List.flatMap_congr fun q hq => ?_
  rw [Function.update_of_ne]
  rintro rfl
  exact hp hq

theorem script_nil {ps : List ℕ} (h : ∀ p ∈ ps, rest p = []) : script bufferSize rest ps = [] := by
  refine List.flatMap_eq_nil_iff.mpr fun p hp => ?_
  rw [h p hp]
  rfl

theorem length_script : (script bufferSize rest d.activePriorities).length = pending d rest := by
  simp [script, pending, List.length_flatMap]

/-- The ring and the bytes. -/
def Handed.pair (e : Handed) : ℕ × List UInt8 := (e.priority, e.data)

/-- When it was handed over, the rings further left were empty and those further right untouched. -/
def Seen (d : Node) (rings₀ : ℕ → Ring.Mem) (e : Handed) : Prop :=
  ∃ pre post, d.activePriorities = pre ++ e.priority :: post ∧
    (∀ q ∈ pre, ∀ cf, d.localRings q = some cf → Holds cf (e.rings q) []) ∧
    ∀ q ∈ post, e.rings q = rings₀ q

/-- The scan: the rings in `pre` are empty, those behind the first of `post` untouched. -/
structure Scan (d : Node) (bufferSize : ℕ) (rings₀ : ℕ → Ring.Mem)
    (contents rest : ℕ → List Ring.Message) (pre post : List ℕ) (st : ℕ × ℕ) (s : Mem) : Prop where
  active : d.activePriorities = pre ++ post
  idx : st.1 ≤ pre.length
  loaded : Loaded d s.rings rest
  empty : ∀ q ∈ pre, rest q = []
  right : ∀ q ∈ post.tail, s.rings q = rings₀ q
  count : st.2 = s.handed.length
  script : s.handed.map Handed.pair ++ script bufferSize rest d.activePriorities =
    script bufferSize contents d.activePriorities
  seen : ∀ e ∈ s.handed, Seen d rings₀ e

variable {rings₀ : ℕ → Ring.Mem} {pre post : List ℕ}

/-- A message comes from the first ring that is not empty. -/
theorem Scan.first (h : Scan d bufferSize rings₀ contents rest pre post st s)
    (hp : d.activePriorities[st.1]? = some p) (hrest : rest p ≠ []) :
    ∃ post', post = p :: post' := by
  have hidx := h.idx
  rw [h.active] at hp
  rcases Nat.lt_or_ge st.1 pre.length with hlt | hge
  · rw [List.getElem?_append_left hlt] at hp
    exact absurd (h.empty p (List.mem_of_getElem? hp)) hrest
  · rw [List.getElem?_append_right hge, show st.1 - pre.length = 0 by omega] at hp
    cases post with
    | nil => cases hp
    | cons q post =>
      cases hp
      exact ⟨post, rfl⟩

/-- An empty ring is passed. -/
theorem Scan.next (h : Scan d bufferSize rings₀ contents rest pre post st s)
    (hp : d.activePriorities[st.1]? = some p) (hempty : rest p = []) :
    ∃ pre' post', Scan d bufferSize rings₀ contents rest pre' post' (st.1 + 1, st.2) s := by
  rcases Nat.lt_or_ge st.1 pre.length with hlt | hge
  · exact ⟨pre, post, h.active, hlt, h.loaded, h.empty, h.right, h.count, h.script, h.seen⟩
  · have hidx := h.idx
    have hpost : post[0]? = some p := by
      rwa [h.active, List.getElem?_append_right hge, show st.1 - pre.length = 0 by omega] at hp
    cases post with
    | nil => cases hpost
    | cons q post =>
      cases hpost
      refine ⟨pre ++ [p], post, ?_, ?_, h.loaded, ?_, ?_, h.count, h.script, h.seen⟩
      · rw [h.active, List.append_assoc]
        rfl
      · rw [List.length_append]
        exact Nat.succ_le_succ hidx
      · intro q hq
        rcases List.mem_append.mp hq with hq | hq
        · exact h.empty q hq
        · obtain rfl := List.mem_singleton.mp hq
          exact hempty
      · intro q hq
        exact h.right q (List.mem_of_mem_tail hq)

/-- A message is handed over. -/
theorem Scan.hand (h : Scan d bufferSize rings₀ contents rest pre (p :: post) st s)
    (hnodup : d.activePriorities.Nodup) {cf : Conf} {m : Ring.Message} {ms : List Ring.Message}
    {v : Ring.Mem} (hcf : d.localRings p = some cf) (hrest : rest p = m :: ms)
    (hv : Holds cf v ms) :
    Scan d bufferSize rings₀ contents (Function.update rest p ms) pre (p :: post) (0, st.2 + 1)
      ⟨Function.update s.rings p v,
        s.handed ++ [⟨p, m.bytes.take bufferSize, Function.update s.rings p v⟩]⟩ := by
  have hactive := h.active
  rw [hactive] at hnodup
  obtain ⟨-, hpost, hdisj⟩ := List.nodup_append.mp hnodup
  have hpre : ∀ q ∈ pre, q ≠ p := fun q hq => hdisj q hq p List.mem_cons_self
  have hpost : p ∉ post := (List.nodup_cons.mp hpost).1
  have hleft : ∀ q ∈ pre, ∀ cf, d.localRings q = some cf →
      Holds cf (Function.update s.rings p v q) [] := by
    intro q hq cf hcf
    rw [Function.update_of_ne (hpre q hq), ← h.empty q hq]
    exact h.loaded.ring q cf hcf
  have hright : ∀ q ∈ post, Function.update s.rings p v q = rings₀ q := by
    intro q hq
    rw [Function.update_of_ne (by rintro rfl; exact hpost hq)]
    exact h.right q hq
  refine ⟨hactive, Nat.zero_le _, h.loaded.update hcf hv, ?_, hright, ?_, ?_, ?_⟩
  · intro q hq
    rw [Function.update_of_ne (hpre q hq)]
    exact h.empty q hq
  · rw [List.length_append, ← h.count]
    rfl
  · rw [← h.script, hactive, script_split, script_split, Function.update_self, hrest,
      script_update hpost, script_update fun hp => hpre p hp rfl, script_nil h.empty]
    simp [Handed.pair]
  · intro e he
    rcases List.mem_append.mp he with he | he
    · exact h.seen e he
    · obtain rfl := List.mem_singleton.mp he
      exact ⟨pre, post, hactive, hleft, hright⟩

/-- What has been handed over when the call comes back. -/
theorem run_poll (hnodup : d.activePriorities.Nodup) (hload : Loaded d s.rings contents)
    (hfew : pending d contents < maxBatchPerPoll) (hnone : s.handed = [])
    (hbuffer : 0 < bufferSize) {n : ℕ} (hrun : Run (pollAndDispatchOnce d bufferSize) s n s') :
    s'.handed.map Handed.pair = script bufferSize contents d.activePriorities ∧
      ∀ e ∈ s'.handed, Seen d s.rings e := by
  have hstart : Scan d bufferSize s.rings contents contents [] d.activePriorities (0, 0) s :=
    ⟨rfl, le_rfl, hload, by simp, fun _ _ => rfl, by rw [hnone]; rfl, by rw [hnone]; rfl,
      by simp [hnone]⟩
  refine hrun.loop_inv (fun st s' => ∃ rest pre post,
    Scan d bufferSize s.rings contents rest pre post st s') (Q := fun _ s' => s'.handed.map
      Handed.pair = script bufferSize contents d.activePriorities ∧
        ∀ e ∈ s'.handed, Seen d s.rings e) ?_ ?_ ⟨_, _, _, hstart⟩
  · rintro st st' s₁ s₂ ⟨rest, pre, post, h⟩ hround
    cases round_of_run h.loaded hround with
    | next hp hempty => exact ⟨rest, h.next hp hempty⟩
    | hand hp hcf hrest hv _ =>
      obtain ⟨post, rfl⟩ := h.first hp (by simp [hrest])
      exact ⟨_, _, _, h.hand hnodup hcf hrest hv⟩
    | lose _ _ _ _ hzero => omega
  · rintro st n s₁ s₂ ⟨rest, pre, post, h⟩ hround
    cases round_of_run h.loaded hround with
    | stop hstop =>
      refine ⟨?_, h.seen⟩
      rcases hstop with hstop | hstop
      · have hidx := h.idx
        rw [List.getElem?_eq_none_iff, h.active, List.length_append] at hstop
        obtain rfl : post = [] := List.length_eq_zero_iff.mp (by omega)
        have hempty : ∀ q ∈ d.activePriorities, rest q = [] := by
          rw [h.active, List.append_nil]
          exact h.empty
        rw [← h.script, script_nil hempty, List.append_nil]
      · have hlen := congrArg List.length h.script
        rw [List.length_append, List.length_map, ← h.count, length_script, length_script] at hlen
        omega

/-- With a buffer of no bytes nothing is handed over. -/
theorem run_poll_zero (hload : Loaded d s.rings contents) (hnone : s.handed = []) {n : ℕ}
    (hrun : Run (pollAndDispatchOnce d 0) s n s') : s'.handed = [] := by
  refine hrun.loop_inv (fun _ s => (∃ rest, Loaded d s.rings rest) ∧ s.handed = [])
    (Q := fun _ s => s.handed = []) ?_ ?_ ⟨⟨contents, hload⟩, hnone⟩
  · rintro st st' s₁ s₂ ⟨⟨rest, h⟩, hnone⟩ hround
    have hround := round_of_run h hround
    refine ⟨hround.loaded h, ?_⟩
    cases hround with
    | next _ _ => exact hnone
    | hand _ _ _ _ hpos => omega
    | lose _ _ _ _ _ => exact hnone
  · rintro st n s₁ s₂ ⟨⟨rest, h⟩, hnone⟩ hround
    cases round_of_run h hround with
    | stop _ => exact hnone

/-! ### The order of the messages -/

theorem filter_script {ps : List ℕ} (hnodup : ps.Nodup) (hp : p ∈ ps) :
    ((script bufferSize contents ps).filter fun x => x.1 = p).map Prod.snd =
      (contents p).map fun m => m.bytes.take bufferSize := by
  have hother : ∀ qs : List ℕ, p ∉ qs →
      (script bufferSize contents qs).filter (fun x => x.1 = p) = [] := by
    intro qs hqs
    rw [List.filter_eq_nil_iff]
    rintro ⟨q, bytes⟩ hx
    obtain ⟨q', hq', hx⟩ := List.mem_flatMap.mp hx
    obtain ⟨m, -, hm⟩ := List.mem_map.mp hx
    cases hm
    simp only [decide_eq_true_eq]
    rintro rfl
    exact hqs hq'
  obtain ⟨pre, post, rfl⟩ := List.append_of_mem hp
  obtain ⟨-, hpost, hdisj⟩ := List.nodup_append.mp hnodup
  rw [script_split, List.filter_append, List.filter_append,
    hother pre fun h => hdisj p h p List.mem_cons_self rfl,
    hother post (List.nodup_cons.mp hpost).1]
  rw [List.nil_append, List.append_nil, List.filter_eq_self.mpr (by simp), List.map_map]
  rfl

/-- The priorities are in the right order as far as there are messages. -/
def Ordered (contents : ℕ → List Ring.Message) (ps : List ℕ) : Prop :=
  ps.Pairwise fun p q => contents p ≠ [] → contents q ≠ [] → p < q

theorem Holds.not_waiting {cf : Conf} {s : Ring.Mem} (h : Holds cf s []) : ¬ Waiting cf s := by
  rintro ⟨k, hhead, htail, -⟩
  have := h.tail
  rw [List.length_nil] at this
  omega

theorem Holds.waiting {cf : Conf} {s : Ring.Mem} {ms : List Ring.Message} (h : Holds cf s ms)
    (hms : ms ≠ []) : Waiting cf s := by
  obtain ⟨m, ms, rfl⟩ := List.exists_cons_of_ne_nil hms
  have htail := h.tail
  rw [List.length_cons] at htail
  exact ⟨s.ring.head, le_rfl, by omega, (h.slot 0 m rfl).1⟩

/-- What stands behind an element stands to its right. -/
theorem mem_right {pre post : List ℕ} {a b i j : ℕ} (hnodup : (pre ++ a :: post).Nodup)
    (hi : (pre ++ a :: post)[i]? = some a) (hj : (pre ++ a :: post)[j]? = some b) (hij : i < j) :
    b ∈ post := by
  have hpre : pre.length ≤ i := by
    by_contra hlt
    rw [List.getElem?_append_left (by omega)] at hi
    exact (List.nodup_append.mp hnodup).2.2 a (List.mem_of_getElem? hi) a List.mem_cons_self rfl
  rw [List.getElem?_append_right (by omega)] at hj
  obtain ⟨k, hk⟩ : ∃ k, j - pre.length = k + 1 := ⟨j - pre.length - 1, by omega⟩
  rw [hk, List.getElem?_cons_succ] at hj
  exact List.mem_of_getElem? hj

section Strict

variable {handed : List Handed} (hnodup : d.activePriorities.Nodup)
  (hload : Loaded d s.rings contents)
  (hpairs : handed.map Handed.pair = script bufferSize contents d.activePriorities)
  (hseen : ∀ e ∈ handed, Seen d s.rings e)

include hnodup hpairs in
/-- What was handed over from one ring. -/
theorem handed_from (hp : p ∈ d.activePriorities) :
    (handed.filter fun e => e.priority = p).map Handed.data =
      (contents p).map fun m => m.bytes.take bufferSize := by
  rw [← filter_script hnodup hp, ← hpairs, List.filter_map, List.map_map]
  rfl

include hpairs in
theorem handed_known {e : Handed} (he : e ∈ handed) :
    e.priority ∈ d.activePriorities ∧ contents e.priority ≠ [] := by
  have hx : e.pair ∈ script bufferSize contents d.activePriorities := by
    rw [← hpairs]
    exact List.mem_map_of_mem he
  obtain ⟨q, hq, hx⟩ := List.mem_flatMap.mp hx
  obtain ⟨m, hm, hx⟩ := List.mem_map.mp hx
  have hqe : q = e.priority := congrArg Prod.fst hx
  subst hqe
  exact ⟨hq, List.ne_nil_of_mem hm⟩

include hnodup hpairs in
theorem exists_handed (hp : p ∈ d.activePriorities) (hne : contents p ≠ []) :
    ∃ e ∈ handed, e.priority = p := by
  by_contra hnone
  push Not at hnone
  have hfrom := handed_from hnodup hpairs hp
  rw [List.filter_eq_nil_iff.mpr fun e he => by simpa using hnone e he] at hfrom
  exact hne (List.map_eq_nil_iff.mp hfrom.symm)

include hnodup hload hpairs hseen in
/-- Of two rings with messages the left one comes first, so it had better be the more urgent. -/
theorem ordered_of_strict (h : Strict d contents handed) :
    Ordered contents d.activePriorities := by
  refine List.pairwise_iff_getElem.mpr fun i j hi hj hij hne hne' => ?_
  obtain ⟨e, he, hei⟩ := exists_handed hnodup hpairs (List.getElem_mem hi) hne
  obtain ⟨pre, post, hactive, -, hright⟩ := hseen e he
  have hi' := List.getElem?_eq_getElem hi
  have hj' := List.getElem?_eq_getElem hj
  generalize d.activePriorities[i] = a at hi' hei
  generalize d.activePriorities[j] = b at hj' hne'
  subst hei
  have hb : b ∈ d.activePriorities := List.mem_of_getElem? hj'
  rw [hactive] at hi' hj' hnodup
  have hpost := mem_right hnodup hi' hj' hij
  obtain ⟨cf, hcf⟩ : ∃ cf, d.localRings b = some cf :=
    Option.ne_none_iff_exists'.mp fun hnull => hne' (hload.null _ hnull)
  have hwaiting : Waiting cf (e.rings b) := by
    rw [hright b hpost]
    exact (hload.ring b cf hcf).waiting hne'
  have hle : e.priority ≤ b := Nat.le_of_not_lt fun hlt => h.order e he b hb hlt cf hcf hwaiting
  refine Nat.lt_of_le_of_ne hle ?_
  rintro rfl
  exact (List.nodup_cons.mp (List.nodup_append.mp hnodup).2.1).1 hpost

include hnodup hload hpairs hseen in
/-- A scan that has come to its end was strict iff the rings stand in the right order and every
    message went into the buffer. -/
theorem strict_iff :
    Strict d contents handed ↔ Ordered contents d.activePriorities ∧
      ∀ p ∈ d.activePriorities, ∀ m ∈ contents p, m.bytes.length ≤ bufferSize := by
  constructor
  · intro h
    refine ⟨ordered_of_strict hnodup hload hpairs hseen h, fun p hp m hm => ?_⟩
    have hbytes := (handed_from hnodup hpairs hp).symm.trans (h.once p hp)
    exact (List.take_eq_self_iff _).mp (List.map_inj_left.mp hbytes m hm)
  · rintro ⟨hordered, hfits⟩
    refine ⟨fun e he => (handed_known hpairs he).1, fun p hp => ?_, fun e he q hq hlt cf hcf => ?_⟩
    · rw [handed_from hnodup hpairs hp]
      exact List.map_congr_left fun m hm => List.take_of_length_le (hfits p hp m hm)
    · obtain ⟨pre, post, hactive, hleft, hright⟩ := hseen e he
      rw [hactive, List.mem_append, List.mem_cons] at hq
      rcases hq with hq | hq | hq
      · exact (hleft q hq cf hcf).not_waiting
      · omega
      · rw [hright q hq]
        have hring := hload.ring q cf hcf
        rw [Ordered, hactive, List.pairwise_append, List.pairwise_cons] at hordered
        by_cases hempty : contents q = []
        · rw [hempty] at hring
          exact hring.not_waiting
        · have := hordered.2.1.1 q hq (handed_known hpairs he).2 hempty
          omega

end Strict

/-- Nothing was handed over: that is right if there was nothing. -/
theorem strict_nil_iff : Strict d contents [] ↔ Ordered contents d.activePriorities ∧
    ∀ p ∈ d.activePriorities, ∀ m ∈ contents p, m.bytes.length ≤ 0 := by
  constructor
  · intro h
    have hempty : ∀ p ∈ d.activePriorities, contents p = [] := fun p hp =>
      List.map_eq_nil_iff.mp (h.once p hp).symm
    refine ⟨List.pairwise_iff_getElem.mpr fun i _ hi _ _ hne => ?_, fun p hp m hm => ?_⟩
    · exact absurd (hempty _ (List.getElem_mem hi)) hne
    · rw [hempty p hp] at hm
      cases hm
  · rintro ⟨-, hfits⟩
    refine ⟨by simp, fun p hp => ?_, by simp⟩
    cases hms : contents p with
    | nil => rfl
    | cons m ms =>
      have := hfits p hp m (by simp [hms])
      have := bytes_pos m
      omega

/-- The dispatcher is strict iff the rings with messages are listed by priority and every message
    fits into the receive buffer. -/
theorem dispatches_iff (hnodup : d.activePriorities.Nodup) (hload : Loaded d s.rings contents)
    (hfew : pending d contents < maxBatchPerPoll) (hnone : s.handed = []) :
    Dispatches d bufferSize s contents ↔ Ordered contents d.activePriorities ∧
      ∀ p ∈ d.activePriorities, ∀ m ∈ contents p, m.bytes.length ≤ bufferSize := by
  have hreturns : Total (· = 0) (fun _ _ => True) (pollAndDispatchOnce d bufferSize) s :=
    poll_returns hload
  have hone : ∀ {n s'}, Run (pollAndDispatchOnce d bufferSize) s n s' →
      (Strict d contents s'.handed ↔ Ordered contents d.activePriorities ∧
        ∀ p ∈ d.activePriorities, ∀ m ∈ contents p, m.bytes.length ≤ bufferSize) := by
    intro n s' hrun
    rcases Nat.eq_zero_or_pos bufferSize with rfl | hpos
    · rw [run_poll_zero hload hnone hrun]
      exact strict_nil_iff
    · obtain ⟨hpairs, hseen⟩ := run_poll hnodup hload hfew hnone hpos hrun
      exact strict_iff hnodup hload hpairs hseen
  constructor
  · intro h
    obtain ⟨n, s', hrun, -⟩ := hreturns.exists_run
    exact (hone hrun).mp (h.strict n s' hrun)
  · intro h
    exact ⟨hreturns, fun n s' hrun => (hone hrun).mpr h⟩

end Round

/-! ### Configurations -/

/-- The rings stand in the order of the descriptors. -/
theorem priorities_userRings {writable : ℕ → Bool} {base : ℕ} {ds : List RingDesc} {l l' : Local}
    (h : placeUserRings writable base ds l = .ok l') (hnodup : (l.rings.map Placed.priority).Nodup) :
    l'.rings.map Placed.priority =
        l.rings.map Placed.priority ++ ds.map (fun d => d.priority.toNat) ∧
      (l'.rings.map Placed.priority).Nodup ∧ ∀ d ∈ ds, d.priority.toNat ≠ 0 := by
  induction ds generalizing l with
  | nil =>
    cases h
    simpa using hnodup
  | cons d ds ih =>
    obtain ⟨hzero, -, hnew, -, h⟩ := Regions.placeUserRings_cons h
    have hplace : (l.place base d.priority.toNat d.ringCapacity d.maxMsgSize).rings.map
        Placed.priority = l.rings.map Placed.priority ++ [d.priority.toNat] := by
      simp [Local.place]
    obtain ⟨hmap, hnodup', hne⟩ := ih h (by
      rw [hplace]
      exact List.nodup_append.mpr ⟨hnodup, List.nodup_singleton _, fun a ha b hb => by
        rintro rfl
        obtain rfl := List.mem_singleton.mp hb
        exact hnew ha⟩)
    refine ⟨?_, hnodup', ?_⟩
    · rw [hmap, hplace, List.append_assoc]
      rfl
    · intro d' hd'
      rcases List.mem_cons.mp hd' with rfl | hd'
      · exact hzero
      · exact hne d' hd'

/-- The lock ring comes first. -/
theorem activePriorities_ofLocal {writable : ℕ → Bool} {base : ℕ} {out : List ℕ}
    {descs : List RingDesc} {l : Local} (h : createLocalRings writable base out descs = .ok l) :
    (Node.ofLocal l).activePriorities = 0 :: descs.map (fun d => d.priority.toNat) ∧
      (Node.ofLocal l).activePriorities.Nodup ∧ ∀ d ∈ descs, d.priority.toNat ≠ 0 := by
  rw [createLocalRings] at h
  split_ifs at h
  obtain ⟨l₁, hl₁, h⟩ := Regions.ok_of_bind h
  obtain ⟨-, rfl⟩ := Regions.construct_eq_ok.mp hl₁
  obtain ⟨l₀, hl₀, h⟩ := Regions.ok_of_bind h
  cases h
  exact priorities_userRings hl₀ (List.nodup_singleton _)

/-- Whoever accepts a configuration dispatches by strict priority iff the descriptors of the rings
    with messages are listed by priority, and the receive buffer has room for each message. -/
theorem dispatch_strict_iff (writable : ℕ → Bool) (base : ℕ) (out : List ℕ) (descs : List RingDesc)
    (l : Local) (s : Mem) (contents : ℕ → List Ring.Message)
    (hl : createLocalRings writable base out descs = .ok l)
    (hload : Loaded (Node.ofLocal l) s.rings contents) (hnone : s.handed = [])
    (hfew : pending (Node.ofLocal l) contents < 8192) :
    Dispatches (Node.ofLocal l) l.maxMsgSizeGlobal s contents ↔
      (descs.Pairwise fun d e => contents d.priority.toNat ≠ [] → contents e.priority.toNat ≠ [] →
        d.priority.toNat < e.priority.toNat) ∧
      ∀ p ∈ (Node.ofLocal l).activePriorities, ∀ m ∈ contents p,
        m.bytes.length ≤ l.maxMsgSizeGlobal := by
  obtain ⟨hactive, hnodup, hne⟩ := activePriorities_ofLocal hl
  rw [dispatches_iff hnodup hload hfew hnone]
  refine and_congr_left fun _ => ?_
  rw [Ordered, hactive, List.pairwise_cons, List.pairwise_map]
  refine and_iff_right fun q hq _ _ => ?_
  obtain ⟨d, hd, rfl⟩ := List.mem_map.mp hq
  exact Nat.pos_of_ne_zero (hne d hd)

/-! ### Rings with given contents -/

/-- A ring into which the messages have been written from ticket `0` on. -/
def filled (cf : Conf) (ms : List Ring.Message) : Ring.Mem :=
  { Ring.Mem.init cf with ring := { Ring.RingBuffer.init cf with
    tail := ms.length
    entries := fun i => ms[i]?.elim ⟨0, fun _ => 0⟩ fun m => ⟨i + 1, fun j => m.bytes.getD j 0⟩
    log := ms } }

theorem holds_filled {cf : Conf} {ms : List Ring.Message} (hroom : ms.length ≤ cf.capacity)
    (hfits : ∀ m ∈ ms, m.Fits cf) : Holds cf (filled cf ms) ms := by
  refine ⟨(Nat.zero_add _).symm, hroom, fun i m hm => ?_, ?_⟩
  · have hi : i < ms.length := (List.getElem?_eq_some_iff.mp hm).1
    have hindex : cf.index i = i := by
      rw [Ring.index_eq_mod, Nat.mod_eq_of_lt (by omega)]
    show ((filled cf ms).ring.entries (cf.index (0 + i))).readySeq = 0 + i + 1 ∧
      Ring.Written ((filled cf ms).ring.entries (cf.index (0 + i))).data m m.bytes.length ∧ _
    rw [Nat.zero_add, hindex]
    simp only [filled, hm, Option.elim_some]
    refine ⟨trivial, fun j hj => ?_, hfits m (List.mem_of_getElem? hm)⟩
    show some (m.bytes.getD j 0) = m.bytes[j]?
    rw [List.getD_eq_getElem?_getD, List.getElem?_eq_getElem hj]
    rfl
  · show (ms[cf.index ms.length]?.elim _ _ : Ring.Entry).readySeq ≠ ms.length + 1
    cases hm : ms[cf.index ms.length]? with
    | none => simp
    | some m =>
      have hlt : cf.index ms.length < ms.length := (List.getElem?_eq_some_iff.mp hm).1
      show cf.index ms.length + 1 ≠ ms.length + 1
      omega

/-- The rings of a node, filled. -/
def fillAll (d : Node) (contents : ℕ → List Ring.Message) : Mem :=
  ⟨fun p => filled ((d.localRings p).getD ⟨0, 0, by norm_num⟩) (contents p), []⟩

/-- Whatever fits into the rings can be in them. -/
theorem loaded_fillAll {l : Local} {contents : ℕ → List Ring.Message}
    (hring : ∀ r ∈ l.rings, (contents r.priority).length ≤ (confOf r).capacity ∧
      ∀ m ∈ contents r.priority, m.Fits (confOf r))
    (hnull : ∀ p, p ∉ l.rings.map Placed.priority → contents p = []) :
    Loaded (Node.ofLocal l) (fillAll (Node.ofLocal l) contents).rings contents := by
  refine ⟨fun p cf hcf => ?_, fun p hp => hnull p fun hmem => ?_⟩
  · have hfilled : (fillAll (Node.ofLocal l) contents).rings p = filled cf (contents p) := by
      simp [fillAll, hcf]
    obtain ⟨r, hr, rfl⟩ := Option.map_eq_some_iff.mp hcf
    have hp : r.priority = p := by simpa using List.find?_some hr
    obtain ⟨hroom, hfits⟩ := hring r (by simpa using List.mem_of_find?_eq_some hr)
    rw [hfilled, ← hp]
    exact holds_filled hroom hfits
  · obtain ⟨r, hr, rfl⟩ := List.mem_map.mp hmem
    have hfind := Option.map_eq_none_iff.mp hp
    simpa using List.find?_eq_none.mp hfind r (by simpa using hr)

/-- Two rings, in the order in which they are given. -/
def twoRings (p q : UInt8) : List RingDesc := [⟨4, 64, p⟩, ⟨4, 64, q⟩]

/-- One message each in the rings of priority `1` and `2`. -/
def oneEach (p : ℕ) : List Ring.Message :=
  if p = 1 ∨ p = 2 then [Ring.shortMessage 7 0] else []

theorem oneEach_of_ne {p : ℕ} (h₁ : p ≠ 1) (h₂ : p ≠ 2) : oneEach p = [] :=
  if_neg fun h => h.elim h₁ h₂

theorem dispatch_strict_twoRings : ∃ l,
    createLocalRings Regions.userSpace 4096 (List.replicate 8 0) (twoRings 1 2) = .ok l ∧
      Dispatches (Node.ofLocal l) l.maxMsgSizeGlobal (fillAll (Node.ofLocal l) oneEach) oneEach := by
  obtain ⟨l, hl, hring, hfew, hbuffer⟩ : ∃ l,
      createLocalRings Regions.userSpace 4096 (List.replicate 8 0) (twoRings 1 2) = .ok l ∧
      (∀ r ∈ l.rings, (oneEach r.priority).length ≤ (confOf r).capacity ∧
        ∀ m ∈ oneEach r.priority, m.Fits (confOf r)) ∧
      pending (Node.ofLocal l) oneEach < 8192 ∧
      ∀ p ∈ (Node.ofLocal l).activePriorities, ∀ m ∈ oneEach p, m.bytes.length ≤ l.maxMsgSizeGlobal :=
    Regions.exists_ok (by decide +kernel)
  refine ⟨l, hl, (dispatch_strict_iff _ 4096 (List.replicate 8 0) (twoRings 1 2) l _ oneEach hl
    (loaded_fillAll hring fun p hp => ?_) rfl hfew).mpr ⟨by decide +kernel, hbuffer⟩⟩
  have hp : p ∉ [0, 1, 2] := (activePriorities_ofLocal hl).1 ▸ hp
  simp only [List.mem_cons, List.not_mem_nil, or_false, not_or] at hp
  exact oneEach_of_ne hp.2.1 hp.2.2

/-- With the rings listed the other way round, the message of priority `2` is handed over while that
    of priority `1` waits. -/
theorem dispatch_inverted : ∃ l s n s', ∃ e ∈ s'.handed, ∃ cf,
    createLocalRings Regions.userSpace 4096 (List.replicate 8 0) (twoRings 2 1) = .ok l ∧
      Loaded (Node.ofLocal l) s.rings oneEach ∧ s.handed = [] ∧
      Run (pollAndDispatchOnce (Node.ofLocal l) l.maxMsgSizeGlobal) s n s' ∧
      e.priority = 2 ∧ (Node.ofLocal l).localRings 1 = some cf ∧ Waiting cf (e.rings 1) := by
  obtain ⟨l, hl, hring, hfew, hbuffer⟩ : ∃ l,
      createLocalRings Regions.userSpace 4096 (List.replicate 8 0) (twoRings 2 1) = .ok l ∧
      (∀ r ∈ l.rings, (oneEach r.priority).length ≤ (confOf r).capacity ∧
        ∀ m ∈ oneEach r.priority, m.Fits (confOf r)) ∧
      pending (Node.ofLocal l) oneEach < maxBatchPerPoll ∧ 0 < l.maxMsgSizeGlobal :=
    Regions.exists_ok (by decide +kernel)
  obtain ⟨hactive, hnodup, -⟩ := activePriorities_ofLocal hl
  have hactive : (Node.ofLocal l).activePriorities = [0, 2, 1] := hactive
  have hload : Loaded (Node.ofLocal l) (fillAll (Node.ofLocal l) oneEach).rings oneEach := by
    refine loaded_fillAll hring fun p hp => ?_
    have hp : p ∉ [0, 2, 1] := hactive ▸ hp
    simp only [List.mem_cons, List.not_mem_nil, or_false, not_or] at hp
    exact oneEach_of_ne hp.2.2 hp.2.1
  have hreturns : Total (· = 0) (fun _ _ => True)
      (pollAndDispatchOnce (Node.ofLocal l) l.maxMsgSizeGlobal) (fillAll (Node.ofLocal l) oneEach) :=
    poll_returns hload
  obtain ⟨n, s', hrun, -⟩ := hreturns.exists_run
  obtain ⟨hpairs, hseen⟩ := run_poll hnodup hload hfew rfl hbuffer hrun
  obtain ⟨e, he, hpriority⟩ := exists_handed hnodup hpairs (p := 2) (by rw [hactive]; decide)
    (by decide)
  obtain ⟨pre, post, hsplit, -, hright⟩ := hseen e he
  rw [hpriority] at hsplit
  have hpost : 1 ∈ post := by
    rw [hsplit] at hnodup
    refine mem_right (i := 1) (j := 2) hnodup ?_ ?_ (by decide)
    · rw [← hsplit, hactive]
      rfl
    · rw [← hsplit, hactive]
      rfl
  obtain ⟨cf, hcf⟩ : ∃ cf, (Node.ofLocal l).localRings 1 = some cf :=
    Option.ne_none_iff_exists'.mp fun hnull => absurd (hload.null 1 hnull) (by decide)
  refine ⟨l, _, n, s', e, he, cf, hl, hload, rfl, hrun, hpriority, hcf, ?_⟩
  rw [hright 1 hpost]
  exact (hload.ring 1 cf hcf).waiting (by decide)

end Dispatch

end UbsAtomic
