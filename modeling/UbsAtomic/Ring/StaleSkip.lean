import UbsAtomic.Ring.Retry

/-! Skipping a ticket whose producer never commits (`try_skip_stale_reserved_entry`).

    One thread polls many rings. What it remembers of a ring whose head does not become readable is
    kept in a table of 32 places that all rings share; a ring that finds no place throws another one
    out.

        states[i]     ring      head_seq    first_seen_us
                      0x40      17          5 000 100        ticket 17 was not ready at that time
                      null      MAX         0                never used

    `notes r` tells what the thread has seen and done in ring `r`, the last first: a look at a
    ticket that was not ready, and a ticket that was passed. No call reads it. -/

namespace UbsAtomic

open Conc Conc.Prog

namespace StaleSkip

open UbsAtomic.Ring (Conf msgHeaderLen headAt tailAt readySeqAt bodyLengthAt copyOut noticeDepth
  FlowOnly SameRing)

/-! ### The memory -/

/-- What the two builds of the source differ in. -/
structure Build where
  halfWriteTimeoutUs : ℕ
  staleReservedProbeMask : ℕ

def Build.release : Build := ⟨5000000, 511⟩

/-- With `UB_COMM_QUEUE_TEST`. -/
def Build.test : Build := ⟨1000, 0⟩

def localStaleStateSlots : ℕ := 32

def uint64Max : ℕ := 18446744073709551615

/-- `LocalStaleReservationState`; a ring is known by its address. -/
structure LocalStaleReservationState where
  ring : ℕ
  headSeq : ℕ
  firstSeenUs : ℕ

def LocalStaleReservationState.init : LocalStaleReservationState := ⟨0, uint64Max, 0⟩

/-- How a ticket was passed. -/
inductive Fate where
  | delivered
  | skipped
  | corrupt
  deriving DecidableEq

inductive Note where
  /-- `ready_seq` was not that of the ticket; where the head was, and when. -/
  | seen (ticket head time : ℕ)
  /-- `head_` was moved past the ticket; where the tail was. -/
  | passed (fate : Fate) (ticket tail : ℕ)
  deriving DecidableEq

/-- The rings by address, the thread's own variables, the clock and the notes. -/
structure Mem where
  rings : ℕ → Ring.Mem
  states : ℕ → LocalStaleReservationState
  staleReservedProbe : ℕ
  clock : ℕ
  notes : ℕ → List Note

abbrev Call := Prog Mem Unit

def ringAt (r : ℕ) : Place Mem Ring.Mem :=
  ⟨fun s => s.rings r, fun v s => { s with rings := Function.update s.rings r v }⟩

def stateAt (i : ℕ) : Place Mem LocalStaleReservationState :=
  ⟨fun s => s.states i, fun v s => { s with states := Function.update s.states i v }⟩

def probeAt : Place Mem ℕ :=
  ⟨fun s => s.staleReservedProbe, fun v s => { s with staleReservedProbe := v }⟩

def clockAt : Place Mem ℕ := ⟨fun s => s.clock, fun v s => { s with clock := v }⟩

def Mem.note (r : ℕ) (n : Note) (s : Mem) : Mem :=
  { s with notes := Function.update s.notes r (n :: s.notes r) }

/-- What is done in ring `r` alone. -/
def inRing {α : Type} (r : ℕ) (c : Ring.Call α) : Call α := c.within (ringAt r) ()

variable (b : Build) (cf : ℕ → Conf)

/-! ### The code -/

/-- The load of `entry->ready_seq` at ticket `k`. -/
def observe (r k : ℕ) : Call ℕ :=
  .act () (fun s _ =>
    let seq := (readySeqAt ((cf r).index k)).get (s.rings r)
    if seq ≠ k + 1 then some (s.note r (.seen k (s.rings r).ring.head s.clock), seq)
    else some (s, seq)) .ret

/-- `head_.store(k + 1)`. -/
def advance (r : ℕ) (fate : Fate) (k : ℕ) : Call Unit :=
  .act () (fun s _ => some (((ringAt r).set (headAt.set (k + 1) (s.rings r)) s).note r
    (.passed fate k (s.rings r).ring.tail), ())) .ret

/-- `start` of `get_local_stale_state`. -/
def startSlot (r : ℕ) : ℕ := (r >>> 6) &&& (localStaleStateSlots - 1)

/-- The loop of `get_local_stale_state`: the first place of the ring or of nobody. -/
def findSlot (states : ℕ → LocalStaleReservationState) (r : ℕ) : Option ℕ :=
  ((List.range localStaleStateSlots).map fun i =>
    (startSlot r + i) &&& (localStaleStateSlots - 1)).find? fun idx =>
      (states idx).ring = r ∨ (states idx).ring = 0

/-- `get_local_stale_state`; the table is the thread's own. -/
def getLocalStaleState (r : ℕ) : Call ℕ :=
  .act () (fun s _ =>
    match findSlot s.states r with
    | some idx => some ((stateAt idx).set { s.states idx with ring := r } s, idx)
    | none =>
      some ((stateAt (startSlot r)).set { LocalStaleReservationState.init with ring := r } s,
        startSlot r)) .ret

/-- The end of `try_skip_stale_reserved_entry`: ticket `k` is given up. -/
def skipEntry (r k i ring : ℕ) : Call Bool := do
  inRing r (store (readySeqAt ((cf r).index k)) 0)
  advance r .skipped k
  store (stateAt i) ⟨ring, uint64Max, 0⟩
  inRing r (noticeDepth (cf r))
  return true

/-- What `try_skip_stale_reserved_entry` makes of place `i` at time `now`. -/
def consult (r k i now : ℕ) : Call Bool := do
  let state ← load (stateAt i)
  if state.headSeq ≠ k then
    store (stateAt i) ⟨state.ring, k, now⟩
    return false
  if state.firstSeenUs = 0 ∨ now < state.firstSeenUs
      ∨ now - state.firstSeenUs < b.halfWriteTimeoutUs then
    return false
  let seq ← observe cf r k
  if seq = k + 1 then
    store (stateAt i) ⟨state.ring, uint64Max, 0⟩
    return false
  skipEntry cf r k i state.ring

/-- `try_skip_stale_reserved_entry`. -/
def trySkipStaleReservedEntry (r k : ℕ) : Call Bool := do
  let tail ← inRing r (load tailAt)
  if tail ≤ k then
    return false
  let seq ← observe cf r k
  if seq = k + 1 then
    return false
  let i ← getLocalStaleState r
  let now ← load clockAt
  consult b cf r k i now

/-- `dequeue` of ring `r` into a buffer of `bufferCap` bytes: the ticket and the bytes, or `none`
    for the result `0`. -/
def dequeue (r bufferCap : ℕ) : Call (Option (ℕ × List UInt8)) := do
  let k ← inRing r (load headAt)
  let seq ← observe cf r k
  if seq ≠ k + 1 then
    let probe ← fetch probeAt fun p => u32 (p + 1)
    if u32 (probe + 1) &&& b.staleReservedProbeMask ≠ 0 then
      return none
    let _ ← trySkipStaleReservedEntry b cf r k
    return none
  let bodyLength ← inRing r (load (bodyLengthAt ((cf r).index k)))
  if msgHeaderLen + bodyLength > (cf r).maxMsgSize then
    inRing r (store (readySeqAt ((cf r).index k)) 0)
    advance r .corrupt k
    return none
  let copyLen :=
    if msgHeaderLen + bodyLength > bufferCap then bufferCap else u32 (msgHeaderLen + bodyLength)
  let bytes ← inRing r (copyOut ((cf r).index k) 0 copyLen)
  inRing r (store (readySeqAt ((cf r).index k)) 0)
  advance r .delivered k
  inRing r (noticeDepth (cf r))
  return some (k, bytes)

/-! ### The parties -/

/-- The thread that polls, the threads that send to ring `r`, and time. -/
inductive Party where
  | consumer
  | producer (r n k : ℕ)
  | time
  deriving DecidableEq

inductive Op where
  | dequeue (r bufferCap : ℕ)
  | enqueueLocal (m : Ring.Message)
  | send (m : Ring.Message)
  | tick (us : ℕ)

/-- The clock does not go back. -/
def tick (us : ℕ) : Call Unit := do
  let _ ← fetch clockAt (· + us)

/-- Who makes which calls; no ring is at address `0`. -/
def Party.may : Party → Op → Bool
  | .consumer, .dequeue r _ => r ≠ 0
  | .producer _ _ _, .enqueueLocal _ => true
  | .producer _ _ _, .send _ => true
  | .time, .tick _ => true
  | _, _ => false

abbrev Received := Option (ℕ × List UInt8)

/-- The tickets `dequeue` has returned, each with its ring, the last first. -/
abbrev Out := List (ℕ × ℕ)

def Out.after (out : Out) : Op → Received → Out
  | .dequeue r _, some (k, _) => (r, k) :: out
  | _, _ => out

def client : Client Party Mem Unit Op Received Out where
  code
    | .consumer, .dequeue r bufferCap => dequeue b cf r bufferCap
    | .producer r _ _, .enqueueLocal m => do
      let _ ← inRing r (Ring.enqueueLocal (cf r) m)
      return none
    | .producer r n k, .send m => do
      let _ ← inRing r (Ring.send (cf r) n k m)
      return none
    | .time, .tick us => do
      tick us
      return none
    | _, _ => return none
  allowed := fun t _ op => t.may op
  start := fun out _ => out
  finish := Out.after

abbrev SkipRun := Config Party Mem Unit Op Received Out

/-- Fresh rings, a fresh table, and any time. -/
def SkipRun.init (clock : ℕ) : SkipRun where
  mem := ⟨fun r => .init (cf r), fun _ => .init, 0, clock, fun _ => []⟩
  held := fun _ => []
  pc := fun _ => none

/-! ### What is said about the notes -/

def Note.ticket : Note → Option ℕ
  | .passed _ k _ => some k
  | .seen _ _ _ => none

def Note.ticketOf (fate : Fate) : Note → Option ℕ
  | .passed f k _ => if f = fate then some k else none
  | .seen _ _ _ => none

/-- The tickets that were passed, the last first. -/
def tickets (notes : List Note) : List ℕ := notes.filterMap Note.ticket

/-- Those that were passed in one way. -/
def ticketsOf (fate : Fate) (notes : List Note) : List ℕ := notes.filterMap (Note.ticketOf fate)

/-- The tickets of ring `r` among those that were returned. -/
def Out.of (r : ℕ) (out : Out) : List ℕ := (out.filter (·.1 = r)).map (·.2)

/-- Ticket `k` was not ready at time `t` with the head at `k`, and no ticket was passed since. -/
def Since (notes : List Note) (k t : ℕ) : Prop :=
  ∃ newer older, notes = newer ++ .seen k k t :: older ∧ tickets newer = []

/-- Why ticket `k` may be skipped: it was reserved, it was not ready at two times far enough apart,
    the second time just now, and the head was at `k` all the time between. -/
def Grounds (notes : List Note) (k tail : ℕ) : Prop :=
  k < tail ∧ ∃ t₁ t₂ older, notes = .seen k k t₂ :: older ∧ Since older k t₁ ∧
    t₁ + b.halfWriteTimeoutUs ≤ t₂

/-- The account of a ring whose head is at `head`. -/
structure Accounted (notes : List Note) (head : ℕ) : Prop where
  order : tickets notes = (List.range head).reverse
  fate : ∀ k < head, ∃! f, k ∈ ticketsOf f notes
  delivered : (ticketsOf .delivered notes).Pairwise (· > ·)
  skipped : ∀ k tail older, .passed .skipped k tail :: older <:+ notes → Grounds b older k tail

/-- A step leaves the head of ring `r` alone, or moves it by one and notes how. -/
def Advances (r : ℕ) (s s' : Mem) : Prop :=
  (s'.rings r).ring.head = (s.rings r).ring.head ∧ tickets (s'.notes r) = tickets (s.notes r) ∨
    (s'.rings r).ring.head = (s.rings r).ring.head + 1 ∧
      ∃ fate, s'.notes r = .passed fate (s.rings r).ring.head (s.rings r).ring.tail :: s.notes r

@[simp] theorem tickets_nil : tickets [] = [] := rfl

@[simp] theorem tickets_seen (k h t : ℕ) (notes : List Note) :
    tickets (.seen k h t :: notes) = tickets notes := rfl

@[simp] theorem tickets_passed (f : Fate) (k tail : ℕ) (notes : List Note) :
    tickets (.passed f k tail :: notes) = k :: tickets notes := rfl

@[simp] theorem ticketsOf_seen (f : Fate) (k h t : ℕ) (notes : List Note) :
    ticketsOf f (.seen k h t :: notes) = ticketsOf f notes := rfl

theorem ticketsOf_passed (f f' : Fate) (k tail : ℕ) (notes : List Note) :
    ticketsOf f (.passed f' k tail :: notes)
      = if f' = f then k :: ticketsOf f notes else ticketsOf f notes := by
  rw [ticketsOf, List.filterMap_cons, Note.ticketOf]
  split_ifs <;> rfl

theorem sublist_ticketsOf (f : Fate) (notes : List Note) :
    (ticketsOf f notes).Sublist (tickets notes) := by
  induction notes with
  | nil => exact .slnil
  | cons n notes ih =>
    cases n with
    | seen k h t => simpa using ih
    | passed f' k tail =>
      rw [ticketsOf_passed, tickets_passed]
      split_ifs
      · exact ih.cons_cons k
      · exact ih.cons k

/-- A ticket that was passed once has one fate. -/
theorem existsUnique_fate {notes : List Note} (hnd : (tickets notes).Nodup) {k : ℕ}
    (hk : k ∈ tickets notes) : ∃! f, k ∈ ticketsOf f notes := by
  induction notes with
  | nil => cases hk
  | cons n notes ih =>
    cases n with
    | seen k' h t =>
      simp only [tickets_seen] at hnd hk
      simpa using ih hnd hk
    | passed f' k' tail =>
      rw [tickets_passed, List.nodup_cons] at hnd
      simp only [ticketsOf_passed]
      by_cases hkk : k = k'
      · subst hkk
        have hnot : ∀ f, k ∉ ticketsOf f notes :=
          fun f hm => hnd.1 ((sublist_ticketsOf f notes).mem hm)
        refine ⟨f', by simp, fun f hf => ?_⟩
        by_contra hne
        dsimp only at hf
        rw [if_neg (Ne.symm hne)] at hf
        exact hnot f hf
      · have hk : k ∈ tickets notes := by simpa [hkk] using hk
        obtain ⟨f, hf, huniq⟩ := ih hnd.2 hk
        have hmem : ∀ g, (k ∈ if f' = g then k' :: ticketsOf g notes else ticketsOf g notes) ↔
            k ∈ ticketsOf g notes := by
          intro g
          split_ifs <;> simp [hkk]
        exact ⟨f, (hmem f).mpr hf, fun g hg => huniq g ((hmem g).mp hg)⟩

section Since

variable {notes : List Note} {k t : ℕ}

theorem Since.now (notes : List Note) (k t : ℕ) : Since (.seen k k t :: notes) k t :=
  ⟨[], notes, rfl, rfl⟩

theorem Since.seen (h : Since notes k t) (k' h' t' : ℕ) : Since (.seen k' h' t' :: notes) k t := by
  obtain ⟨newer, older, rfl, hn⟩ := h
  exact ⟨.seen k' h' t' :: newer, older, rfl, hn⟩

end Since

/-! ### The producers -/

section Producers

/-- What a producer does to a ring, as far as the consumer cares. -/
structure Behind (s s' : Ring.Mem) : Prop where
  head : s'.ring.head = s.ring.head
  tail : s.ring.tail ≤ s'.ring.tail

theorem Behind.refl (s : Ring.Mem) : Behind s s := ⟨rfl, le_rfl⟩

abbrev Pushes {α : Type} (p : Ring.Call α) : Prop := Quiet Behind (fun _ => True) p

theorem pushes_flow {α : Type} {p : Ring.Call α} (h : FlowOnly p) : Pushes p :=
  h.mono (fun _ _ hs => ⟨hs.head, hs.tail.ge⟩) fun _ _ => trivial

theorem pushes_load {α : Type} {e : Ring.Label} {p : Place Ring.Mem α} : Pushes (loadAt e p) :=
  .read trivial .refl

variable (cf : Conf) (m : Ring.Message)

theorem pushes_hasRoom (e : Ring.Label) {cachedHead : Place Ring.Mem ℕ} (currTail : ℕ)
    (hc : ∀ s v, Behind s (cachedHead.set v s)) :
    Pushes (Ring.hasRoom cf e cachedHead currTail) := by
  refine .bind pushes_load fun cached => .ite ?_ trivial
  refine .bind pushes_load fun fresh => .bind (.write trivial fun s => hc s fresh) fun _ => ?_
  exact .ite (.bind (pushes_flow (Ring.flow_sampleFlowState cf _)) fun _ => trivial) trivial

theorem pushes_reserve (currTail : ℕ) : Pushes (Ring.reserve m currTail) := by
  refine ⟨trivial, fun s c s' b hf => ?_, fun _ => trivial⟩
  dsimp only at hf
  split_ifs at hf with hc
  · cases hf
    exact ⟨rfl, hc.1.trans_le (Nat.le_succ _)⟩
  · cases hf
    exact .refl s

theorem pushes_copyIn (k i : ℕ) (bytes : List UInt8) (off : ℕ) :
    Pushes (Ring.copyIn k i bytes off) := by
  induction bytes generalizing off with
  | nil => trivial
  | cons x xs ih => exact .bind (.write trivial fun s => ⟨rfl, le_rfl⟩) fun _ => ih (off + 1)

theorem pushes_writeEntry (k : ℕ) : Pushes (Ring.writeEntry cf m k) := by
  refine .bind (pushes_copyIn ..) fun _ => .ite ?_ (.write trivial fun s => ⟨rfl, le_rfl⟩)
  exact .bind (pushes_copyIn ..) fun _ => .write trivial fun s => ⟨rfl, le_rfl⟩

theorem pushes_enqueueLocal : Pushes (Ring.enqueueLocal cf m) := by
  refine .ite trivial (.bind pushes_load fun tail => .bind (.loop fun st => ?_) fun ticket => ?_)
  · refine .bind (pushes_hasRoom cf _ _ fun s v => ⟨rfl, le_rfl⟩) fun room => .ite trivial ?_
    exact .bind (pushes_reserve m st) fun taken => .ite trivial trivial
  · cases ticket with
    | none => trivial
    | some k =>
      refine .bind (pushes_writeEntry cf m k) fun _ => ?_
      refine .bind pushes_load fun threshold => .bind pushes_load fun cached => .ite trivial ?_
      refine .bind pushes_load fun fresh => .bind (.write trivial fun _ => ⟨rfl, le_rfl⟩) fun _ => ?_
      exact pushes_flow (Ring.flow_sampleFlowState cf _)

theorem pushes_enqueueRemote (n : ℕ) : Pushes (Ring.enqueueRemote cf n m) := by
  refine .ite trivial (.bind pushes_load fun tail => .bind (.loop fun st => ?_) fun ticket => ?_)
  · refine .ite trivial (.bind (pushes_hasRoom cf _ _ fun s v => ⟨rfl, le_rfl⟩) fun room => ?_)
    exact .ite trivial (.bind (pushes_reserve m st.2) fun taken => .ite trivial trivial)
  · cases ticket with
    | error e => trivial
    | ok k =>
      refine .bind (pushes_writeEntry cf m k) fun _ => ?_
      refine .bind (pushes_flow (Ring.flow_cachedFlowThreshold _ n)) fun threshold => ?_
      refine .ite trivial (.bind pushes_load fun cached => .ite trivial ?_)
      refine .bind (pushes_flow (Ring.flow_refreshCachedThreshold n)) fun _ => ?_
      refine .bind pushes_load fun fresh => .bind (.write trivial fun _ => ⟨rfl, le_rfl⟩) fun _ => ?_
      exact pushes_flow (Ring.flow_sampleFlowState cf _)

theorem pushes_tryPopulateCache (n : ℕ) : Pushes (Ring.tryPopulateCache n) := by
  have hset : ∀ {α : Type} {e : Ring.Label} {get : Ring.Cache → α} {set : α → Ring.Cache → Ring.Cache}
      (v : α), Pushes (storeAt e (Ring.cacheField n get set) v) :=
    fun v => .write trivial fun s => ⟨rfl, le_rfl⟩
  have hring : Pushes (Ring.getRemoteRing n) := by
    refine .bind pushes_load fun known => .ite trivial (.bind pushes_load fun initialized => ?_)
    refine .ite trivial (.bind pushes_load fun offset => .ite trivial ?_)
    exact .bind (hset true) fun _ => trivial
  refine .bind hring fun ret => .ite trivial (.bind ?_ fun _ => ?_)
  · refine ⟨trivial, fun s c s' b hf => ?_, fun _ => trivial⟩
    cases hf
    exact ⟨rfl, le_rfl⟩
  refine .bind pushes_load fun threshold => .bind (hset threshold) fun _ => ?_
  refine .bind pushes_load fun version => .bind (hset version) fun _ => ?_
  exact .bind (hset true) fun _ => trivial

theorem pushes_send (n k : ℕ) : Pushes (Ring.send cf n k m) := by
  have hunlock : Pushes (Ring.unlockShared n k) := by
    refine ⟨trivial, fun s c s' b hf => ?_, fun _ => trivial⟩
    cases hf
    exact ⟨rfl, le_rfl⟩
  refine .bind (pushes_flow Ring.flow_choose) fun alive => .ite trivial (.bind ?_ fun _ => ?_)
  · refine ⟨trivial, fun s c s' b hf => ?_, fun _ => trivial⟩
    dsimp only at hf
    split_ifs at hf
    cases hf
    exact ⟨rfl, le_rfl⟩
  refine .bind pushes_load fun ready => .bind (.ite trivial (pushes_tryPopulateCache n)) fun _ => ?_
  refine .ite (.bind hunlock fun _ => trivial) ?_
  exact .bind (pushes_enqueueRemote cf m n) fun _ => .bind hunlock fun _ => trivial

end Producers

/-! ### The invariant -/

/-- Where the consumer stands in a call. -/
inductive Stage where
  | idle
  /-- It has loaded the head. -/
  | standing (r k : ℕ)
  /-- The tail was behind it. -/
  | reserved (r k : ℕ)
  /-- The ticket was not ready at time `t`. -/
  | looked (r k t : ℕ)
  /-- It has place `i` of the table. -/
  | placed (r k t i : ℕ)
  | timed (r k t i now : ℕ)
  /-- The time is over. -/
  | overdue (r k : ℕ)
  /-- The ticket was not ready then. -/
  | armed (r k : ℕ)

/-- Ring `r` has its head at `k`, which is reserved. -/
def Stands (s : Mem) (r k : ℕ) : Prop := (s.rings r).ring.head = k ∧ k < (s.rings r).ring.tail

def Stage.Holds (s : Mem) : Stage → Prop
  | .idle => True
  | .standing r k => (s.rings r).ring.head = k
  | .reserved r k => Stands s r k
  | .looked r k t => Stands s r k ∧ Since (s.notes r) k t ∧ t ≤ s.clock
  | .placed r k t i => Stands s r k ∧ Since (s.notes r) k t ∧ t ≤ s.clock ∧ (s.states i).ring = r
  | .timed r k t i now => Stands s r k ∧ Since (s.notes r) k t ∧ t ≤ now ∧ now ≤ s.clock ∧
      (s.states i).ring = r
  | .overdue r k => Stands s r k ∧
      ∃ t, Since (s.notes r) k t ∧ t + b.halfWriteTimeoutUs ≤ s.clock
  | .armed r k => Stands s r k ∧ Grounds b (s.notes r) k (s.rings r).ring.tail

structure Ghost where
  out : Out
  stage : Stage

/-- What a place of the table tells: its ticket has been passed, or the head still waits there. -/
def Remembers (s : Mem) (st : LocalStaleReservationState) : Prop :=
  st.firstSeenUs ≠ 0 → st.ring ≠ 0 ∧ (st.headSeq < (s.rings st.ring).ring.head ∨
    st.headSeq = (s.rings st.ring).ring.head ∧
      ∃ t ≤ st.firstSeenUs, Since (s.notes st.ring) st.headSeq t)

structure Inv (s : Mem) (g : Ghost) : Prop where
  order : ∀ r, tickets (s.notes r) = (List.range (s.rings r).ring.head).reverse
  skipped : ∀ r k tail older, .passed .skipped k tail :: older <:+ s.notes r →
    Grounds b older k tail
  out : ∀ r, ticketsOf .delivered (s.notes r) = g.out.of r
  table : ∀ i, Remembers s (s.states i)
  stage : g.stage.Holds b s

/-- What the others do, and the consumer where it neither notes nor remembers anything. -/
structure Aside (s s' : Mem) : Prop where
  rings : ∀ r, Behind (s.rings r) (s'.rings r)
  states : s'.states = s.states
  notes : s'.notes = s.notes
  clock : s.clock ≤ s'.clock

theorem Aside.refl (s : Mem) : Aside s s := ⟨fun _ => .refl _, rfl, rfl, le_rfl⟩

section Keep

variable {b : Build} {s s' : Mem} {g : Ghost} {r k : ℕ}

theorem Stands.aside (h : Stands s r k) (ha : Aside s s') : Stands s' r k :=
  ⟨(ha.rings r).head.trans h.1, h.2.trans_le (ha.rings r).tail⟩

theorem Stage.Holds.aside {st : Stage} (h : st.Holds b s) (ha : Aside s s') : st.Holds b s' := by
  cases st with
  | idle => trivial
  | standing r k => exact (ha.rings r).head.trans h
  | reserved r k => exact Stands.aside h ha
  | looked r k t =>
    obtain ⟨h, hs, ht⟩ := h
    exact ⟨h.aside ha, by rwa [ha.notes], ht.trans ha.clock⟩
  | placed r k t i =>
    obtain ⟨h, hs, ht, hi⟩ := h
    exact ⟨h.aside ha, by rwa [ha.notes], ht.trans ha.clock, by rwa [ha.states]⟩
  | timed r k t i now =>
    obtain ⟨h, hs, ht, hn, hi⟩ := h
    exact ⟨h.aside ha, by rwa [ha.notes], ht, hn.trans ha.clock, by rwa [ha.states]⟩
  | overdue r k =>
    obtain ⟨h, t, hs, ht⟩ := h
    exact ⟨h.aside ha, t, by rwa [ha.notes], ht.trans ha.clock⟩
  | armed r k =>
    obtain ⟨h, -, hg⟩ := h
    exact ⟨h.aside ha, (h.aside ha).2, by rwa [ha.notes]⟩

theorem Inv.aside (h : Inv b s g) (ha : Aside s s') : Inv b s' g where
  order r := by rw [ha.notes, (ha.rings r).head, h.order r]
  skipped r := by rw [ha.notes]; exact h.skipped r
  out r := by rw [ha.notes, h.out r]
  table i := by
    intro hf
    rw [ha.states] at hf ⊢
    rw [ha.notes, (ha.rings _).head]
    exact h.table i hf
  stage := h.stage.aside ha

/-- The consumer comes to another stage without a step that matters. -/
theorem Inv.to (h : Inv b s g) {st : Stage} (hst : st.Holds b s) : Inv b s ⟨g.out, st⟩ :=
  ⟨h.order, h.skipped, h.out, h.table, hst⟩

theorem suffix_cons_of_ne {α : Type} {x y : α} {l l' : List α} (hne : x ≠ y)
    (h : x :: l <:+ y :: l') : x :: l <:+ l' := by
  rcases List.suffix_cons_iff.mp h with heq | hs
  · exact absurd (List.cons.inj heq).1 hne
  · exact hs

/-- A look at a ticket that is not ready is noted. -/
theorem Inv.look (h : Inv b s g) (k t : ℕ) {st : Stage}
    (hst : st.Holds b (s.note r (.seen k (s.rings r).ring.head t))) :
    Inv b (s.note r (.seen k (s.rings r).ring.head t)) ⟨g.out, st⟩ where
  order r' := by
    by_cases hr : r' = r
    · subst hr
      simpa [Mem.note] using h.order r'
    · simpa [Mem.note, hr] using h.order r'
  skipped r' k' tail older hs := by
    by_cases hr : r' = r
    · subst hr
      have hs : .passed .skipped k' tail :: older <:+
          .seen k (s.rings r').ring.head t :: s.notes r' := by
        simpa [Mem.note] using hs
      exact h.skipped r' k' tail older (suffix_cons_of_ne (by simp) hs)
    · exact h.skipped r' k' tail older (by simpa [Mem.note, hr] using hs)
  out r' := by
    by_cases hr : r' = r
    · subst hr
      simpa [Mem.note] using h.out r'
    · simpa [Mem.note, hr] using h.out r'
  table i := by
    intro hf
    obtain ⟨hne, hk⟩ := h.table i hf
    refine ⟨hne, hk.imp_right fun ⟨heq, t', ht', hsince⟩ => ⟨heq, t', ht', ?_⟩⟩
    by_cases hr : (s.states i).ring = r
    · subst hr
      simpa [Mem.note] using hsince.seen k _ t
    · simpa [Mem.note, hr] using hsince
  stage := hst

/-- A place of the table is written. -/
theorem Inv.remember (h : Inv b s g) (i : ℕ) {v : LocalStaleReservationState}
    (hv : Remembers s v) {st : Stage} (hst : st.Holds b ((stateAt i).set v s)) :
    Inv b ((stateAt i).set v s) ⟨g.out, st⟩ where
  order := h.order
  skipped := h.skipped
  out := h.out
  table j := by
    by_cases hj : j = i
    · subst hj
      simpa [stateAt, Remembers] using hv
    · simpa [stateAt, hj, Remembers] using h.table j
  stage := hst

/-- The head of ring `r` moves past ticket `k`. -/
theorem Inv.pass (h : Inv b s g) (hk : (s.rings r).ring.head = k) (fate : Fate) {out : Out}
    (hskip : fate = .skipped → Grounds b (s.notes r) k (s.rings r).ring.tail)
    (hout : out = if fate = .delivered then (r, k) :: g.out else g.out) :
    Inv b (((ringAt r).set (headAt.set (k + 1) (s.rings r)) s).note r
      (.passed fate k (s.rings r).ring.tail)) ⟨out, .idle⟩ where
  order r' := by
    by_cases hr : r' = r
    · subst hr
      simp [Mem.note, ringAt, headAt, Ring.field, h.order r', hk, List.range_succ]
    · simpa [Mem.note, ringAt, hr] using h.order r'
  skipped r' k' tail older hs := by
    by_cases hr : r' = r
    · subst hr
      have hs : .passed .skipped k' tail :: older <:+
          .passed fate k (s.rings r').ring.tail :: s.notes r' := by
        simpa [Mem.note, ringAt] using hs
      rcases List.suffix_cons_iff.mp hs with heq | hs
      · obtain ⟨hn, rfl⟩ := List.cons.inj heq
        obtain ⟨hf, rfl, rfl⟩ := Note.passed.inj hn
        exact hskip hf.symm
      · exact h.skipped r' k' tail older hs
    · exact h.skipped r' k' tail older (by simpa [Mem.note, ringAt, hr] using hs)
  out r' := by
    subst hout
    by_cases hr : r' = r
    · subst hr
      have hnotes : ticketsOf .delivered (.passed fate k (s.rings r').ring.tail :: s.notes r')
          = Out.of r' (if fate = .delivered then (r', k) :: g.out else g.out) := by
        rw [ticketsOf_passed, h.out r']
        split_ifs <;> simp [Out.of]
      simpa [Mem.note, ringAt] using hnotes
    · have hnotes : Out.of r' (if fate = .delivered then (r, k) :: g.out else g.out)
          = Out.of r' g.out := by
        split_ifs
        · simp [Out.of, Ne.symm hr]
        · rfl
      rw [hnotes]
      simpa [Mem.note, ringAt, hr] using h.out r'
  table i := by
    intro hf
    obtain ⟨hne, hold⟩ := h.table i hf
    refine ⟨hne, ?_⟩
    by_cases hr : (s.states i).ring = r
    · subst hr
      have hle : (s.states i).headSeq ≤ k := hk ▸ hold.elim le_of_lt fun heq => heq.1.le
      exact .inl (by simpa [Mem.note, ringAt, headAt, Ring.field] using Nat.lt_succ_of_le hle)
    · simpa [Mem.note, ringAt, hr] using hold
  stage := trivial

end Keep

/-! ### The calls -/

/-- Every call of `dequeue` adds at most one ticket to what was returned. -/
def spec : Spec Party Mem Unit Op Received Out Ghost where
  inv s γ := Inv b s (γ .consumer)
  lab _ _ := True
  cond _ _ _ _ := True
  claim _ _ _ := True
  rest t out g := t = .consumer → g.out = out
  moves t out _ g := t = .consumer → g.out = out ∨ ∃ p, g.out = p :: out
  good _ _ _ _ := True

abbrev Does {α : Type} (out : Out) (p : Call α) (Q : α → Ghost → Prop) (g : Ghost) : Prop :=
  wp (spec b).toOutline .consumer ((spec b).moves .consumer out) p Q g

abbrev Asides {α : Type} (p : Call α) : Prop := Quiet Aside (fun _ => True) p

theorem asides_inRing {α : Type} {p : Ring.Call α} (hp : Pushes p) (r : ℕ) :
    Asides (inRing r p) := by
  refine hp.within trivial fun s m hm => ⟨fun r' => ?_, rfl, rfl, le_rfl⟩
  by_cases hr : r' = r
  · subst hr
    simpa [ringAt] using hm
  · simpa [ringAt, hr] using Behind.refl (s.rings r')

theorem asides_load {α : Type} (p : Place Mem α) : Asides (load p) := .read trivial .refl

section Calls

variable {b : Build} {cf : ℕ → Conf} {α β : Type} {out : Out} {st : Stage} {g : Ghost} {r k : ℕ}

theorem stable {t : Party} (hg : (spec b).moves t out g g) :
    (spec b).toOutline.Stable t ((spec b).moves t out) Aside (fun _ => True) g where
  inv _ _ _ _ ha hi := Inv.aside hi ha
  rest := trivial
  lab _ _ := trivial
  claim _ _ _ := trivial
  keep := hg

theorem moves_stay : (spec b).moves .consumer out g ⟨out, st⟩ := fun _ => .inl rfl

theorem does_asides {p : Call α} {q : α → Call β} {Q : β → Ghost → Prop} (hp : Asides p)
    (hg : (spec b).moves .consumer out g g) (hq : ∀ a, Does b out (q a) Q g) :
    Does b out (p.bind q) Q g :=
  hp.wp_bind (stable hg) hq

theorem does_act {f : Mem → ℕ → Option (Mem × α)} {Q : α → Ghost → Prop}
    (h : ∀ s c s' a, Inv b s g → f s c = some (s', a) →
      ∃ g', (spec b).moves .consumer out g g' ∧ Inv b s' g' ∧ Q a g') :
    Does b out (.act () f .ret) Q g := by
  refine ⟨trivial, fun s γ hpre => ⟨trivial, fun c s' a hf => ?_⟩⟩
  obtain ⟨g', hm, hi, hq⟩ := h s c s' a (hpre.own ▸ hpre.inv) hf
  refine ⟨g', hm, ?_, trivial, hq⟩
  simpa [spec] using hi

theorem does_load {p : Place Mem α} {Q : α → Ghost → Prop}
    (h : ∀ s, Inv b s g → ∃ st : Stage, st.Holds b s ∧ Q (p.get s) ⟨out, st⟩) (hg : g.out = out) :
    Does b out (load p) Q g := by
  refine does_act fun s c s' a hi hf => ?_
  cases hf
  obtain ⟨st, hst, hq⟩ := h s hi
  subst hg
  exact ⟨_, moves_stay, hi.to hst, hq⟩

theorem does_ringLoad {p : Place Ring.Mem α} {Q : α → Ghost → Prop}
    (h : ∀ s, Inv b s g → ∃ st : Stage, st.Holds b s ∧ Q (p.get (s.rings r)) ⟨out, st⟩)
    (hg : g.out = out) : Does b out (inRing r (load p)) Q g := by
  refine does_act fun s c s' a hi hf => ?_
  cases hf
  obtain ⟨st, hst, hq⟩ := h s hi
  have hs : (ringAt r).set ((ringAt r).get s) s = s := by simp [ringAt]
  subst hg
  exact ⟨_, moves_stay, hs.symm ▸ hi.to hst, hq⟩

/-- A look at `ready_seq`. -/
theorem does_observe {Q : ℕ → Ghost → Prop} (hg : g.out = out) (hready : Q (k + 1) g)
    (h : ∀ s seq, seq ≠ k + 1 → Inv b s g → ∃ st : Stage,
      st.Holds b (s.note r (.seen k (s.rings r).ring.head s.clock)) ∧ Q seq ⟨out, st⟩) :
    Does b out (observe cf r k) Q g := by
  subst hg
  refine does_act fun s c s' a hi hf => ?_
  dsimp only at hf
  split_ifs at hf with hseq
  · cases hf
    obtain ⟨st, hst, hq⟩ := h s _ hseq hi
    exact ⟨_, moves_stay, hi.look k s.clock hst, hq⟩
  · cases hf
    exact ⟨g, moves_stay, hi, not_not.mp hseq ▸ hready⟩

/-- A place of the table is written. -/
theorem does_remember {i : ℕ} {v : LocalStaleReservationState} {Q : Unit → Ghost → Prop}
    (hg : g.out = out) (hv : ∀ s, Inv b s g → Remembers s v) (hq : Q () ⟨out, .idle⟩) :
    Does b out (store (stateAt i) v) Q g := by
  subst hg
  refine does_act fun s c s' a hi hf => ?_
  cases hf
  exact ⟨_, moves_stay, hi.remember i (hv s hi) (show Stage.Holds b _ .idle from trivial), hq⟩

theorem does_forget {i ring : ℕ} {Q : Unit → Ghost → Prop} (hg : g.out = out)
    (hq : Q () ⟨out, .idle⟩) : Does b out (store (stateAt i) ⟨ring, uint64Max, 0⟩) Q g :=
  does_remember hg (fun _ _ hf => absurd rfl hf) hq

theorem asides_storeReady (r k : ℕ) : Asides (inRing r (store (readySeqAt ((cf r).index k)) 0)) :=
  asides_inRing (.write trivial fun _ => ⟨rfl, le_rfl⟩) r

theorem asides_noticeDepth (r : ℕ) : Asides (inRing r (noticeDepth (cf r))) :=
  asides_inRing (pushes_flow (Ring.flow_noticeDepth (cf r))) r

theorem does_skipEntry (i ring : ℕ) :
    Does b out (skipEntry cf r k i ring) (fun _ g => g.out = out) ⟨out, .armed r k⟩ := by
  refine does_asides (asides_storeReady r k) moves_stay fun _ => wp_bind (does_act ?_)
  intro s c s' a hi hf
  cases hf
  obtain ⟨⟨hhead, -⟩, hgrounds⟩ := hi.stage
  refine ⟨_, moves_stay, hi.pass hhead .skipped (fun _ => hgrounds) rfl, ?_⟩
  refine wp_bind (does_forget rfl ?_)
  exact does_asides (asides_noticeDepth r) moves_stay fun _ => ⟨trivial, rfl⟩

theorem does_consult (hr : r ≠ 0) (t i now : ℕ) :
    Does b out (consult b cf r k i now) (fun _ g => g.out = out) ⟨out, .timed r k t i now⟩ := by
  refine wp_bind (does_load (fun s hi => ?_) rfl)
  obtain ⟨hstands, hsince, htn, hnow, hring⟩ := hi.stage
  have htable := hi.table i
  have hget : (stateAt i).get s = s.states i := rfl
  rw [hget]
  revert htable hring
  generalize s.states i = state
  intro hring htable
  by_cases hk : state.headSeq ≠ k
  · -- the place was of another ticket: from now on it is of this one
    rw [if_pos hk]
    refine ⟨.timed r k t i now, hi.stage, wp_bind (does_remember rfl ?_ ⟨trivial, rfl⟩)⟩
    rintro s' hi' -
    obtain ⟨⟨hhead, -⟩, hsince', -⟩ := hi'.stage
    rw [hring]
    exact ⟨hr, .inr ⟨hhead.symm, t, htn, hsince'⟩⟩
  rw [if_neg hk]
  split_ifs with hearly
  · exact ⟨.idle, trivial, trivial, rfl⟩
  -- the place was of this ticket, which has not been passed
  have hk : state.headSeq = k := not_not.mp hk
  have hover : Stage.Holds b s (.overdue r k) := by
    refine ⟨hstands, ?_⟩
    obtain ⟨-, hpast | ⟨-, t₁, ht₁, hsince₁⟩⟩ := htable (by omega)
    · rw [hring, hk, hstands.1] at hpast
      exact absurd hpast (lt_irrefl k)
    · rw [hring, hk] at hsince₁
      exact ⟨t₁, hsince₁, by omega⟩
  refine ⟨.overdue r k, hover, wp_bind (does_observe rfl ?_ fun s' seq hseq hi' => ?_)⟩
  · rw [if_pos rfl]
    exact wp_bind (does_forget rfl ⟨trivial, rfl⟩)
  · rw [if_neg hseq]
    refine ⟨.armed r k, ?_, does_skipEntry i _⟩
    obtain ⟨hs', t₁, hsince', htime⟩ := hi'.stage
    refine ⟨hs', hs'.2, t₁, s'.clock, s'.notes r, ?_, hsince', htime⟩
    simp [Mem.note, hs'.1]

theorem findSlot_some {states : ℕ → LocalStaleReservationState} {i : ℕ}
    (h : findSlot states r = some i) : (states i).ring = r ∨ (states i).ring = 0 := by
  simpa using List.find?_some h

/-- A place that was found still tells what it told, and one that was taken tells nothing. -/
theorem does_getLocalStaleState (t : ℕ) : Does b out (getLocalStaleState r)
    (fun i g => g = ⟨out, .placed r k t i⟩) ⟨out, .looked r k t⟩ := by
  refine does_act fun s c s' i hi hf => ?_
  obtain ⟨hstands, hsince, ht⟩ := hi.stage
  have hplaced : ∀ v : LocalStaleReservationState, v.ring = r → Stage.Holds b ((stateAt i).set v s)
      (.placed r k t i) :=
    fun v hv => ⟨hstands, hsince, ht, by simpa [stateAt] using hv⟩
  dsimp only at hf
  split at hf
  · rename_i j hj
    cases hf
    refine ⟨_, moves_stay, hi.remember i ?_ (hplaced _ rfl), rfl⟩
    intro hne
    obtain ⟨hzero, htold⟩ := hi.table i hne
    have hring : (s.states i).ring = r := (findSlot_some hj).resolve_right hzero
    rw [hring] at hzero htold
    exact ⟨hzero, htold⟩
  · cases hf
    exact ⟨_, moves_stay, hi.remember _ (fun hne => absurd rfl hne) (hplaced _ rfl), rfl⟩

theorem does_trySkip (hr : r ≠ 0) :
    Does b out (trySkipStaleReservedEntry b cf r k) (fun _ g => g.out = out)
      ⟨out, .standing r k⟩ := by
  refine wp_bind (does_ringLoad (fun s hi => ?_) rfl)
  have hget : tailAt.get (s.rings r) = (s.rings r).ring.tail := rfl
  rw [hget]
  by_cases htail : (s.rings r).ring.tail ≤ k
  · rw [if_pos htail]
    exact ⟨.idle, trivial, trivial, rfl⟩
  rw [if_neg htail]
  refine ⟨.reserved r k, ⟨hi.stage, not_le.mp htail⟩, wp_bind (does_observe rfl ?_ ?_)⟩
  · rw [if_pos rfl]
    exact ⟨trivial, rfl⟩
  intro s' seq hseq hi'
  rw [if_neg hseq]
  refine ⟨.looked r k s'.clock, ⟨hi'.stage, ?_, le_rfl⟩, ?_⟩
  · have hhead : (s'.rings r).ring.head = k := hi'.stage.1
    simpa [Mem.note, hhead] using Since.now (s'.notes r) k s'.clock
  refine wp_bind (wp_mono (does_getLocalStaleState s'.clock) ?_)
  rintro i _ - rfl
  refine wp_bind (does_load (fun s₁ hi₁ => ?_) rfl)
  obtain ⟨hstands, hsince, ht, hring⟩ := hi₁.stage
  exact ⟨.timed r k s'.clock i s₁.clock, ⟨hstands, hsince, ht, le_rfl, hring⟩, does_consult hr ..⟩

theorem pushes_copyOut (i off count : ℕ) : Pushes (copyOut i off count) := by
  induction count generalizing off with
  | zero => trivial
  | succ count ih => exact .bind pushes_load fun _ => .bind (ih (off + 1)) fun _ => trivial

theorem does_advance {fate : Fate} {Q : Unit → Ghost → Prop} (hne : fate ≠ .skipped)
    (hq : Q () ⟨if fate = .delivered then (r, k) :: out else out, .idle⟩) :
    Does b out (advance r fate k) Q ⟨out, .standing r k⟩ := by
  refine does_act fun s c s' a hi hf => ?_
  cases hf
  refine ⟨_, fun _ => ?_, hi.pass hi.stage fate (fun h => absurd h hne) rfl, hq⟩
  split_ifs
  · exact .inr ⟨_, rfl⟩
  · exact .inl rfl

theorem does_dequeue (hr : r ≠ 0) (bufferCap : ℕ) (hg : g.out = out) :
    Does b out (dequeue b cf r bufferCap)
      (fun a g => g.out = out.after (.dequeue r bufferCap) a) g := by
  refine wp_bind (does_ringLoad (fun s hi => ?_) hg)
  have hhead : Stage.Holds b s (.standing r (headAt.get (s.rings r))) := rfl
  revert hhead
  generalize headAt.get (s.rings r) = k
  intro hhead
  refine ⟨.standing r k, hhead, wp_bind (does_observe rfl ?_ fun s' seq hseq hi' => ?_)⟩
  · rw [if_neg (not_not_intro rfl)]
    refine does_asides (asides_inRing pushes_load r) moves_stay fun bodyLength => ?_
    split
    · refine does_asides (asides_storeReady r k) moves_stay fun _ => ?_
      exact wp_bind (does_advance (by simp) ⟨trivial, rfl⟩)
    refine does_asides (asides_inRing (pushes_copyOut ..) r) moves_stay fun bytes => ?_
    refine does_asides (asides_storeReady r k) moves_stay fun _ => ?_
    refine wp_bind (does_advance (by simp) ?_)
    exact does_asides (asides_noticeDepth r) (fun _ => .inr ⟨_, rfl⟩) fun _ => ⟨trivial, rfl⟩
  · rw [if_pos hseq]
    refine ⟨.standing r k, hi'.stage, does_asides ?_ moves_stay fun probe => ?_⟩
    · exact .rmw trivial fun s v => ⟨fun _ => .refl _, rfl, rfl, le_rfl⟩
    split_ifs
    · exact ⟨trivial, rfl⟩
    exact wp_bind (wp_mono (does_trySkip hr) fun _ _ _ h => ⟨trivial, h⟩)

end Calls

/-! ### Every run -/

variable {b : Build} {cf : ℕ → Conf}

/-- The calls of the others. -/
theorem asides_code {t : Party} {op : Op} (hop : t.may op = true) (ht : t ≠ .consumer) :
    Asides ((client b cf).code t op) := by
  cases t with
  | consumer => exact absurd rfl ht
  | producer r n k =>
    cases op with
    | enqueueLocal m =>
      exact .bind (asides_inRing (pushes_enqueueLocal (cf r) m) r) fun _ => trivial
    | send m => exact .bind (asides_inRing (pushes_send (cf r) m n k) r) fun _ => trivial
    | dequeue _ _ => cases hop
    | tick _ => cases hop
  | time =>
    cases op with
    | tick us =>
      have htick : Asides (fetch clockAt (· + us)) := by
        refine ⟨trivial, fun s c s' a hf => ?_, fun _ => trivial⟩
        cases hf
        exact ⟨fun _ => .refl _, rfl, rfl, Nat.le_add_right ..⟩
      exact .bind (.bind htick fun _ => trivial) fun _ => trivial
    | dequeue _ _ => cases hop
    | enqueueLocal _ => cases hop
    | send _ => cases hop

theorem proved : (spec b).Proved (client b cf) where
  stay _ _ _ _ h := h
  idle _ _ _ h := ⟨trivial, fun ht => .inl (h ht)⟩
  start _ _ _ _ _ h := fun ht => .inl (h ht)
  call t out op g hop hg := by
    by_cases ht : t = .consumer
    · subst ht
      cases op with
      | dequeue r bufferCap =>
        have hr : r ≠ 0 := by simpa [client, Party.may] using hop
        exact wp_mono (does_dequeue hr bufferCap (hg rfl)) fun _ _ _ h => ⟨trivial, fun _ => h⟩
      | enqueueLocal _ => cases hop
      | send _ => cases hop
      | tick _ => cases hop
    · have hstable : (spec b).toOutline.Stable t ((spec b).moves t out) Aside (fun _ => True) g :=
        stable fun h => absurd h ht
      exact wp_mono ((asides_code hop ht).wp hstable) fun _ _ _ _ => ⟨trivial, fun h => absurd h ht⟩

theorem inv_init (clock : ℕ) : Inv b (SkipRun.init cf clock).mem ⟨[], .idle⟩ where
  order _ := rfl
  skipped _ _ _ _ h := by cases List.suffix_nil.mp h
  out _ := rfl
  table _ hf := absurd rfl hf
  stage := trivial

/-- In every state that is reached the notes of every ring tell its whole history. -/
theorem inv_of_reachable {clock : ℕ} {x : SkipRun}
    (hx : Config.Reachable (client b cf) (SkipRun.init cf clock) x) :
    ∃ g, Inv b x.mem g ∧
      (g.out = x.held .consumer ∨ ∃ p, g.out = p :: x.held .consumer) := by
  have h₀ : (spec b).Holds (client b cf) (SkipRun.init cf clock) fun _ => ⟨[], .idle⟩ :=
    ⟨inv_init clock, fun _ => ⟨⟨[], .idle⟩, fun _ => .inl rfl⟩, fun _ _ _ => rfl,
      fun _ _ _ hp => by cases hp⟩
  obtain ⟨γ, hγ⟩ := proved.sound h₀ hx
  exact ⟨γ .consumer, hγ.inv, (hγ.moved .consumer).elim fun _ h => h rfl⟩

theorem Inv.accounted {s : Mem} {g : Ghost} (h : Inv b s g) (r : ℕ) :
    Accounted b (s.notes r) (s.rings r).ring.head where
  order := h.order r
  fate k hk := by
    refine existsUnique_fate ?_ ?_
    · rw [h.order r]
      exact List.nodup_reverse.mpr List.nodup_range
    · rw [h.order r]
      simpa using hk
  delivered := by
    refine List.Pairwise.sublist (sublist_ticketsOf .delivered _) ?_
    rw [h.order r, List.pairwise_reverse]
    exact List.pairwise_lt_range
  skipped := h.skipped r

/-- What a step does to the notes. -/
def Notes (s s' : Mem) : Prop := ∀ r,
  (s'.rings r).ring.head = (s.rings r).ring.head ∧ tickets (s'.notes r) = tickets (s.notes r) ∨
    ∃ fate k, (s'.rings r).ring.head = k + 1 ∧
      s'.notes r = .passed fate k (s.rings r).ring.tail :: s.notes r

abbrev Noting {α : Type} (p : Call α) : Prop := Quiet Notes (fun _ => True) p

theorem Aside.noted {s s' : Mem} (h : Aside s s') : Notes s s' :=
  fun r => .inl ⟨(h.rings r).head, by rw [h.notes]⟩

theorem noting_asides {α : Type} {p : Call α} (h : Asides p) : Noting p :=
  h.mono (fun _ _ hs => hs.noted) fun _ h => h

theorem noting_observe (r k : ℕ) : Noting (observe cf r k) := by
  refine ⟨trivial, fun s c s' a hf r' => ?_, fun _ => trivial⟩
  dsimp only at hf
  split_ifs at hf <;> cases hf
  · by_cases hr : r' = r
    · subst hr
      exact .inl ⟨rfl, by simp [Mem.note]⟩
    · exact .inl ⟨rfl, by simp [Mem.note, hr]⟩
  · exact .inl ⟨rfl, rfl⟩

theorem noting_advance (r : ℕ) (fate : Fate) (k : ℕ) : Noting (advance r fate k) := by
  refine ⟨trivial, fun s c s' a hf r' => ?_, fun _ => trivial⟩
  cases hf
  by_cases hr : r' = r
  · subst hr
    exact .inr ⟨fate, k, by simp [Mem.note, ringAt, headAt, Ring.field], by simp [Mem.note, ringAt]⟩
  · exact .inl ⟨by simp [Mem.note, ringAt, hr], by simp [Mem.note, ringAt, hr]⟩

theorem noting_state (i : ℕ) (v : LocalStaleReservationState) : Noting (store (stateAt i) v) :=
  .write trivial fun _ _ => .inl ⟨rfl, rfl⟩

theorem noting_getLocalStaleState (r : ℕ) : Noting (getLocalStaleState r) := by
  refine ⟨trivial, fun s c s' a hf r' => ?_, fun _ => trivial⟩
  dsimp only at hf
  split at hf <;> cases hf <;> exact .inl ⟨rfl, rfl⟩

theorem noting_trySkip (r k : ℕ) : Noting (trySkipStaleReservedEntry b cf r k) := by
  refine .bind (noting_asides (asides_inRing pushes_load r)) fun tail => .ite trivial ?_
  refine .bind (noting_observe r k) fun seq => .ite trivial ?_
  refine .bind (noting_getLocalStaleState r) fun i => ?_
  refine .bind (noting_asides (asides_load _)) fun now => ?_
  refine .bind (noting_asides (asides_load _)) fun state => .ite ?_ (.ite trivial ?_)
  · exact .bind (noting_state ..) fun _ => trivial
  refine .bind (noting_observe r k) fun seq => .ite (.bind (noting_state ..) fun _ => trivial) ?_
  refine .bind (noting_asides (asides_storeReady r k)) fun _ => ?_
  refine .bind (noting_advance ..) fun _ => .bind (noting_state ..) fun _ => ?_
  exact .bind (noting_asides (asides_noticeDepth r)) fun _ => trivial

theorem noting_dequeue (r bufferCap : ℕ) : Noting (dequeue b cf r bufferCap) := by
  refine .bind (noting_asides (asides_inRing pushes_load r)) fun k => ?_
  refine .bind (noting_observe r k) fun seq => .ite (.bind ?_ fun probe => .ite trivial ?_) ?_
  · exact .rmw trivial fun s v r => .inl ⟨rfl, rfl⟩
  · exact .bind (noting_trySkip r k) fun _ => trivial
  have hstore : Noting (inRing r (store (readySeqAt ((cf r).index k)) 0)) :=
    noting_asides (asides_storeReady r k)
  refine .bind (noting_asides (asides_inRing pushes_load r)) fun bodyLength => .ite ?_ ?_
  · exact .bind hstore fun _ => .bind (noting_advance ..) fun _ => trivial
  refine .bind (noting_asides (asides_inRing (pushes_copyOut ..) r)) fun bytes => ?_
  refine .bind hstore fun _ => .bind (noting_advance ..) fun _ => ?_
  exact .bind (noting_asides (asides_noticeDepth r)) fun _ => trivial

theorem noting_code {t : Party} {op : Op} (hop : t.may op = true) :
    Noting ((client b cf).code t op) := by
  by_cases ht : t = .consumer
  · subst ht
    cases op with
    | dequeue r bufferCap => exact noting_dequeue r bufferCap
    | enqueueLocal _ => cases hop
    | send _ => cases hop
    | tick _ => cases hop
  · exact noting_asides (asides_code hop ht)

/-- A head that moves moves by one: both histories are whole, and one note is the difference. -/
theorem advances_of_notes {s s' : Mem} {g g' : Ghost} (h : Inv b s g) (h' : Inv b s' g')
    (hn : Notes s s') (r : ℕ) : Advances r s s' := by
  rcases hn r with hsame | ⟨fate, k, hhead, hnotes⟩
  · exact .inl hsame
  have hk : k = (s.rings r).ring.head := by
    have hlen := congrArg List.length (h'.order r)
    rw [hnotes, tickets_passed, h.order r, hhead] at hlen
    simpa using hlen.symm
  subst hk
  exact .inr ⟨hhead, fate, hnotes⟩

theorem of_suffix_of_moved {g : Ghost} {out : Out}
    (h : g.out = out ∨ ∃ p, g.out = p :: out) (r : ℕ) : out.of r <:+ g.out.of r := by
  rcases h with h | ⟨p, h⟩
  · rw [h]
  · rw [h, Out.of, Out.of, List.filter_cons]
    split_ifs
    · exact List.suffix_cons ..
    · exact List.suffix_refl _

/-- One thread polls any rings while others send and time passes. In every state that is reached
    every ticket below the head of a ring was delivered, skipped or dropped, each once and in order;
    a skipped one was reserved and not ready at two times that lie far enough apart with the head
    at it; `dequeue` has returned ascending tickets; and no step moves a head by more than one. -/
theorem skips_accounted (b : Build) (cf : ℕ → Conf) (clock : ℕ) (x : SkipRun)
    (hx : Config.Reachable (client b cf) (SkipRun.init cf clock) x) (r : ℕ) :
    Accounted b (x.mem.notes r) (x.mem.rings r).ring.head ∧
    ((x.held .consumer).of r).Pairwise (· > ·) ∧
    (x.held .consumer).of r <:+ ticketsOf .delivered (x.mem.notes r) ∧
    ∀ t m y, x.step (client b cf) t m = some y → Advances r x.mem y.mem := by
  obtain ⟨g, hi, hout⟩ := inv_of_reachable hx
  have hacc := hi.accounted r
  have hsuffix : (x.held .consumer).of r <:+ ticketsOf .delivered (x.mem.notes r) := by
    rw [hi.out r]
    exact of_suffix_of_moved hout r
  refine ⟨hacc, hacc.delivered.sublist hsuffix.sublist, hsuffix, fun t m y hs => ?_⟩
  obtain ⟨g', hi', -⟩ := inv_of_reachable (hx.step (fun _ _ => trivial) hs)
  rcases hx.step_obeys (Q := fun _ => Notes) (t := t)
    (fun _ op hop => (noting_code hop).obeys fun _ _ _ _ h => h) rfl hs with ⟨-, hsame⟩ | ⟨_, -, hn⟩
  · rw [hsame]
    exact .inl ⟨rfl, rfl⟩
  · exact advances_of_notes hi hi' hn r

/-- Two producers of the ring at `64` of which the first never commits. -/
def halfWritten : List (Config.Piece Party Unit Op) :=
  [.call (.producer 64 0 0) (.enqueueLocal Ring.grantToNodeZero),
    .steps (.producer 64 0 0) [0, 0, 0, 0],
    .call (.producer 64 0 1) (.enqueueLocal Ring.grantToNodeZero), .finish (.producer 64 0 1),
    .call .consumer (.dequeue 64 64), .finish .consumer, .call .time (.tick 2000), .finish .time,
    .call .consumer (.dequeue 64 64), .finish .consumer,
    .call .consumer (.dequeue 64 64), .finish .consumer]

theorem skips_accounted_halfWritten : ∃ x,
    Config.Reachable (client .test fun _ => Ring.eightSlots)
      (SkipRun.init (fun _ => Ring.eightSlots) 5) x ∧
    ticketsOf .skipped (x.mem.notes 64) = [0] ∧ (x.held .consumer).of 64 = [1] ∧
    Accounted .test (x.mem.notes 64) (x.mem.rings 64).ring.head := by
  obtain ⟨x, hx, hskipped, hreturned⟩ : ∃ x : SkipRun,
      Config.Reachable (client .test fun _ => Ring.eightSlots)
        (SkipRun.init (fun _ => Ring.eightSlots) 5) x ∧
      ticketsOf .skipped (x.mem.notes 64) = [0] ∧ (x.held .consumer).of 64 = [1] :=
    Config.reachable_of_runAll halfWritten (by decide +kernel)
  exact ⟨x, hx, hskipped, hreturned, (skips_accounted .test _ 5 x hx 64).1⟩

end StaleSkip

end UbsAtomic
