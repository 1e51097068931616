import UbsAtomic.Lock.State

/-! The wait queue of `ring_queue.h`, step by step.

    A waiter takes a ticket by moving `tail`, writes its entry into slot `ticket mod CAP` and then
    counts itself. A waker marks the head entry NOTIFIED; the woken waiter, once it has its lock,
    empties the slot and moves `head`. A waiter that gives up only marks its slot TIMEOUT, and
    whoever looks at the head next steps over it.

        EMPTY ──▶ WRITING ──▶ WAITING ──▶ NOTIFIED ──▶ EMPTY (head + 1)
                     └───────────┴────────────┴──────▶ TIMEOUT

    The same code serves the queue in shared memory and those of the local locks: a `QueueRef`
    says where the queue lives, how many slots it has, and which labels its steps carry. -/

namespace UbsAtomic

open Conc Conc.Prog

/-- The steps of a queue operation that other modules speak about; `t` is the ticket. -/
inductive QLabel where
  | step
  | tailCas
  | slotLoad (t : ℕ)
  | writing (t : ℕ)
  | payload (t : ℕ)
  | waiting (t : ℕ)
  | counted (t : ℕ)
  | timeoutCas (t : ℕ)
  | popHead (t : ℕ)
  | headSlot (t : ℕ)
  | advance (t : ℕ)
  | outSeq (t : ℕ)
  | outCas (t : ℕ)
  | handoffHead (t : ℕ)
  | handoffCas (t : ℕ)
  deriving DecidableEq

structure QueueRef (σ ε π : Type) where
  cap : ℕ
  ref : Place σ (RingQueue π)
  reset : π
  modeOf : π → Mode
  lab : QLabel → ε

namespace QueueRef

variable {σ ε π : Type} (q : QueueRef σ ε π)

/-! ### Where its variables are -/

def head : Place σ ℕ := q.ref.comp ⟨fun r => r.head, fun v r => { r with head := v }⟩

def tail : Place σ ℕ := q.ref.comp ⟨fun r => r.tail, fun v r => { r with tail := v }⟩

def count : Place σ ℕ := q.ref.comp ⟨fun r => r.count, fun v r => { r with count := v }⟩

def seq (i : ℕ) : Place σ WaitState :=
  q.ref.comp ⟨fun r => (r.slots i).seq,
    fun v r => { r with slots := Function.update r.slots i { r.slots i with seq := v } }⟩

def payload (i : ℕ) : Place σ π :=
  q.ref.comp ⟨fun r => (r.slots i).payload,
    fun v r => { r with slots := Function.update r.slots i { r.slots i with payload := v } }⟩

/-- `ticket & (CAP - 1)`. -/
def index (ticket : ℕ) : ℕ := ticket % q.cap

/-! ### The operations -/

/-- `ring_queue_try_dec_count`. -/
def tryDecCount : Prog σ ε Unit := do
  let cur ← loadAt (q.lab .step) q.count
  loop (fun cur => do
    if cur = 0 then
      return .inr ()
    let (ok, cur) ← casWeakAt (q.lab .step) q.count cur (cur - 1)
    return if ok then .inr () else .inl cur) cur

/-- `ring_queue_try_mark_timeout`, on the slot of `ticket`. -/
def tryMarkTimeout (ticket : ℕ) : Prog σ ε Bool := do
  let seq ← loadAt (q.lab .step) (q.seq (q.index ticket))
  loop (fun seq => do
    if seq = .writing ∨ seq = .waiting ∨ seq = .notified then
      let (ok, seq) ← casWeakAt (q.lab (.timeoutCas ticket)) (q.seq (q.index ticket)) seq .timeout
      if ok then
        storeAt (q.lab .step) (q.payload (q.index ticket)) q.reset
        q.tryDecCount
        return .inr true
      else
        return .inl seq
    else
      return .inr false) seq

/-- `ring_queue_advance_dead_head`. -/
def advanceDeadHead : Prog σ ε Unit :=
  loop (fun _ => do
    let h ← loadAt (q.lab .step) q.head
    let t ← loadAt (q.lab .step) q.tail
    if h = t then
      return .inr ()
    let seqv ← loadAt (q.lab (.headSlot h)) (q.seq (q.index h))
    if seqv = .timeout then
      let _ ← casWeakAt (q.lab (.advance h)) q.head h (u32 (h + 1))
      return .inl ()
    return .inr ()) ()

/-- The ticket loop of `ring_queue_enqueue`: `none` when the ring is full. -/
def takeTicket : Prog σ ε (Option ℕ) :=
  loop (fun _ => do
    let h ← loadAt (q.lab .step) q.head
    let t ← loadAt (q.lab .step) q.tail
    if u32Sub t h ≥ q.cap then
      return .inr none
    let (ok, _) ← casWeakAt (q.lab .tailCas) q.tail t (u32 (t + 1))
    return if ok then .inr (some t) else .inl ()) ()

/-- `ring_queue_enqueue`. -/
def enqueue (p : π) : Prog σ ε (Result × ℕ) := do
  match ← q.takeTicket with
  | none => return (.error, 0)
  | some ticket =>
    let _ ← loadAt (q.lab (.slotLoad ticket)) (q.seq (q.index ticket))
    storeAt (q.lab (.writing ticket)) (q.seq (q.index ticket)) .writing
    storeAt (q.lab (.payload ticket)) (q.payload (q.index ticket)) p
    storeAt (q.lab (.waiting ticket)) (q.seq (q.index ticket)) .waiting
    let _ ← fetchAt (q.lab (.counted ticket)) q.count fun n => u32 (n + 1)
    return (.success, ticket)

/-- `ring_queue_outqueue`: marks the head entry NOTIFIED and returns its slot. -/
def outqueue : Prog σ ε (Option ℕ) :=
  loop (fun sanity => do
    if sanity = 0 then
      return .inr none
    let h ← loadAt (q.lab .step) q.head
    let seqv ← loadAt (q.lab (.outSeq h)) (q.seq (q.index h))
    if seqv = .writing then
      return .inl (sanity - 1)
    if seqv = .waiting then
      let (ok, _) ← casAt (q.lab (.outCas h)) (q.seq (q.index h)) .waiting .notified
      return if ok then .inr (some (q.index h)) else .inl (sanity - 1)
    return .inr none) (q.cap * 4)

/-- `ring_queue_clean_timeout`. -/
def cleanTimeout (ticket : ℕ) : Prog σ ε Unit := do
  let _ ← q.tryMarkTimeout ticket

/-- `ring_queue_peek_head_mode_clean`. -/
def peekHeadModeClean : Prog σ ε (Option Mode) :=
  loop (fun _ => do
    let h ← loadAt (q.lab .step) q.head
    let t ← loadAt (q.lab .step) q.tail
    if h = t then
      return .inr none
    let seqv ← loadAt (q.lab (.headSlot h)) (q.seq (q.index h))
    match seqv with
    | .writing => return .inl ()
    | .waiting =>
      let p ← loadAt (q.lab .step) (q.payload (q.index h))
      return .inr (some (q.modeOf p))
    | .notified => return .inr none
    | .timeout =>
      let _ ← casWeakAt (q.lab (.advance h)) q.head h (u32 (h + 1))
      return .inl ()
    | .empty => return .inr none) ()

/-- `ring_queue_pop_head`. -/
def popHead (ticket : ℕ) : Prog σ ε Unit := do
  storeAt (q.lab (.popHead ticket)) (q.seq (q.index ticket)) .empty
  storeAt (q.lab .step) (q.payload (q.index ticket)) q.reset
  let _ ← fetchAt (q.lab .step) q.head fun h => u32 (h + 1)
  q.tryDecCount

/-- `ring_queue_try_self_handoff_if_head`. -/
def trySelfHandoffIfHead (ticket : ℕ) : Prog σ ε Bool := do
  let h ← loadAt (q.lab (.handoffHead ticket)) q.head
  let t ← loadAt (q.lab .step) q.tail
  if h = t then
    return false
  if h ≠ ticket then
    return false
  let (ok, _) ← casAt (q.lab (.handoffCas ticket)) (q.seq (q.index ticket)) .waiting .notified
  return ok

end QueueRef

end UbsAtomic
