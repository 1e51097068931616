import UbsAtomic.Conc.Machine
import UbsAtomic.Lock.WaitQueue

/-! The wait queue one atomic step at a time, with an observer.

    The observer sees every write to the queue. A ticket is live from the tail CAS that claims it
    until its owner marks the slot TIMEOUT or empties it, and fresh until its slot is first written;
    `passed` is raised when the head leaves a live ticket behind.

        tail CAS ──▶ live, fresh ──WRITING──▶ live ──TIMEOUT or EMPTY──▶ dead
                                               │
                                   head moves on from it: passed

    The head-cleaning loops look at the slot of the head ticket; between the tail CAS and the store
    of WRITING that slot still shows how its last user left it. -/

namespace UbsAtomic

open Conc Conc.Prog

namespace QueueSteps

variable {π σ : Type}

/-! ### The observed queue -/

/-- The queue, the tickets that are live and those that are fresh, and whether one was passed. -/
structure Site (π : Type) where
  queue : RingQueue π
  live : Finset ℕ
  fresh : Finset ℕ
  passed : Bool

/-- The state of the slot of ticket `n`. -/
def seqAt (cap : ℕ) (r : RingQueue π) (n : ℕ) : WaitState := (r.slots (n % cap)).seq

/-- Writing `v` over `r` ends the life of ticket `n`. -/
def Ends (cap : ℕ) (r v : RingQueue π) (n : ℕ) : Prop :=
  seqAt cap v n ≠ seqAt cap r n ∧ (seqAt cap v n = .timeout ∨ seqAt cap v n = .empty)

instance (cap : ℕ) (r v : RingQueue π) (n : ℕ) : Decidable (Ends cap r v n) :=
  inferInstanceAs (Decidable (_ ∧ _))

/-- The ticket that writing `v` over `r` claims. -/
def claimed (r v : RingQueue π) : Finset ℕ := if v.tail = r.tail then ∅ else {r.tail}

/-- A write to the queue, and what the observer makes of it. -/
def Site.write (cap : ℕ) (v : RingQueue π) (s : Site π) : Site π where
  queue := v
  live := (s.live ∪ claimed s.queue v).filter fun n => ¬ Ends cap s.queue v n
  fresh := (s.fresh ∪ claimed s.queue v).filter fun n => seqAt cap v n = seqAt cap s.queue n
  passed := s.passed || (v.head ≠ s.queue.head && decide (s.queue.head ∈ s.live))

/-! ### The code -/

/-- The queue under observation. -/
def queue (cap : ℕ) (reset : π) (modeOf : π → Mode) : QueueRef (Site π) QLabel π :=
  ⟨cap, ⟨(·.queue), Site.write cap⟩, reset, modeOf, id⟩

/-! ### Who calls -/

inductive Op (π : Type) where
  | enqueue (p : π)
  | outqueue
  | peek
  | advance
  | clean (ticket : ℕ)
  | pop (ticket : ℕ)
  | handoff (ticket : ℕ)

/-- The program behind a call; `some` ticket from an enqueue that succeeded. -/
def code (q : QueueRef σ QLabel π) : Op π → Prog σ QLabel (Option ℕ)
  | .enqueue p => do
    let (res, ticket) ← q.enqueue p
    return if res = .success then some ticket else none
  | .outqueue => do
    let _ ← q.outqueue
    return none
  | .peek => do
    let _ ← q.peekHeadModeClean
    return none
  | .advance => do
    q.advanceDeadHead
    return none
  | .clean t => do
    q.cleanTimeout t
    return none
  | .pop t => do
    q.popHead t
    return none
  | .handoff t => do
    let _ ← q.trySelfHandoffIfHead t
    return none

/-- Any number of threads; a thread holds the tickets it has got and not given up, and gives up or
    pops only those. -/
def client (cap : ℕ) (reset : π) (modeOf : π → Mode) :
    Client ℕ (Site π) QLabel (Op π) (Option ℕ) (Finset ℕ) where
  code _ := code (queue cap reset modeOf)
  allowed _ h
    | .clean t | .pop t | .handoff t => decide (t ∈ h)
    | _ => true
  start h
    | .clean t | .pop t => h.erase t
    | _ => h
  finish h
    | .enqueue _, some t => insert t h
    | _, _ => h

abbrev QueueRun (π : Type) := Config ℕ (Site π) QLabel (Op π) (Option ℕ) (Finset ℕ)

/-- A fresh queue, and nobody in a call. -/
def QueueRun.init (p : π) : QueueRun π := ⟨⟨.init p, ∅, ∅, false⟩, fun _ => ∅, fun _ => none⟩

/-- Owners pop only what was notified. Beyond that: the head-cleaning loops load the slot of the
    head only when its ticket is not fresh; `outqueue` notifies only while the head it has loaded is
    still the head; and the tickets do not wrap. -/
def Careful (cap : ℕ) (_ : ℕ → Option QLabel) (_ : ℕ) : QLabel → Site π → Prop
  | .headSlot h, s => h ∉ s.fresh
  | .outCas h, s => s.queue.head = h
  | .tailCas, s => s.queue.tail + 1 < 4294967296
  | .popHead t, s => seqAt cap s.queue t = .notified
  | _, _ => True

end QueueSteps

end UbsAtomic
