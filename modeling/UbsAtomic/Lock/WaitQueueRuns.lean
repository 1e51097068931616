import Mathlib.Data.Finset.Card
import Mathlib.Order.Interval.Finset.Nat
import UbsAtomic.Lock.WaitQueue

/-! Whole histories of one wait queue, every operation run to its end before the next.

    A `Trace` keeps, beside the queue itself, what its users know: the tickets in the order in which
    they were given out, whose owners have neither given up nor popped, and which entries became
    NOTIFIED, in that order.

        enqueue ──▶ owned ──▶ (NOTIFIED) ──▶ pop_head
                      └────────────┴───────▶ clean_timeout

    The n-th enqueue has the number n, however often the 32-bit tickets wrap. -/

namespace UbsAtomic

open Conc Conc.Prog

namespace WaitQueue

variable {π : Type}

/-! ### Histories -/

/-- A queue and what is known about its use so far. -/
structure Trace (π : Type) where
  queue : RingQueue π
  /-- The tickets given out, in order. -/
  tickets : List ℕ
  /-- The numbers of the entries whose owner has called neither clean_timeout nor pop_head. -/
  owned : Finset ℕ
  /-- The numbers of the entries that became NOTIFIED, in order. -/
  notified : List ℕ
  /-- For each slot the number of the last entry in it. -/
  holder : ℕ → ℕ

inductive Op (π : Type) where
  | enqueue (p : π)
  | outqueue
  | peek
  | advance
  | clean (n : ℕ)
  | pop (n : ℕ)
  | handoff (ticket : ℕ)

/-- The slots that are NOTIFIED in `s'` and were not in `s`. -/
def newly (cap : ℕ) (s s' : RingQueue π) : List ℕ :=
  (List.range cap).filter fun i => (s'.slots i).seq = .notified ∧ (s.slots i).seq ≠ .notified

/-- The trace after an operation has left the queue as `s`. -/
def Trace.saw (x : Trace π) (cap : ℕ) (s : RingQueue π) : Trace π :=
  { x with queue := s, notified := x.notified ++ (newly cap x.queue s).map x.holder }

/-- One whole operation. Owners act at most once, and pop only what was notified. -/
inductive Step (q : QueueRef (RingQueue π) QLabel π) (x : Trace π) : Op π → Trace π → Prop
  | enqueue {p : π} {t : ℕ} {s : RingQueue π} (h : (q.enqueue p).Run x.queue (.success, t) s) :
      Step q x (.enqueue p) { x.saw q.cap s with
        tickets := x.tickets ++ [t]
        owned := insert x.tickets.length x.owned
        holder := Function.update x.holder (q.index t) x.tickets.length }
  | full {p : π} {t : ℕ} {s : RingQueue π} (h : (q.enqueue p).Run x.queue (.error, t) s) :
      Step q x (.enqueue p) (x.saw q.cap s)
  | outqueue {r : Option ℕ} {s : RingQueue π} (h : q.outqueue.Run x.queue r s) :
      Step q x .outqueue (x.saw q.cap s)
  | peek {r : Option Mode} {s : RingQueue π} (h : q.peekHeadModeClean.Run x.queue r s) :
      Step q x .peek (x.saw q.cap s)
  | advance {s : RingQueue π} (h : q.advanceDeadHead.Run x.queue () s) :
      Step q x .advance (x.saw q.cap s)
  | clean {n t : ℕ} {s : RingQueue π} (hn : n ∈ x.owned) (ht : x.tickets[n]? = some t)
      (h : (q.cleanTimeout t).Run x.queue () s) :
      Step q x (.clean n) { x.saw q.cap s with owned := x.owned.erase n }
  | pop {n t : ℕ} {s : RingQueue π} (hn : n ∈ x.owned) (hnot : n ∈ x.notified)
      (ht : x.tickets[n]? = some t) (h : (q.popHead t).Run x.queue () s) :
      Step q x (.pop n) { x.saw q.cap s with owned := x.owned.erase n }
  | handoff {t : ℕ} {r : Bool} {s : RingQueue π} (h : (q.trySelfHandoffIfHead t).Run x.queue r s) :
      Step q x (.handoff t) (x.saw q.cap s)

/-- The traces of all histories whose operations meet `ok`. -/
inductive History (q : QueueRef (RingQueue π) QLabel π) (ok : Trace π → Op π → Prop)
    (x₀ : Trace π) : Trace π → Prop
  | init : History q ok x₀ x₀
  | step {x y : Trace π} {op : Op π} (h : History q ok x₀ x) (hok : ok x op) (hs : Step q x op y) :
      History q ok x₀ y

/-- A history with its operations, the last one first, and the trace each of them met. -/
inductive Log (q : QueueRef (RingQueue π) QLabel π) (ok : Trace π → Op π → Prop) (x₀ : Trace π) :
    List (Trace π × Op π) → Trace π → Prop
  | init : Log q ok x₀ [] x₀
  | step {es : List (Trace π × Op π)} {x y : Trace π} {op : Op π} (h : Log q ok x₀ es x)
      (hok : ok x op) (hs : Step q x op y) : Log q ok x₀ ((x, op) :: es) y

theorem Log.history {q : QueueRef (RingQueue π) QLabel π} {ok : Trace π → Op π → Prop}
    {x₀ x : Trace π} {es : List (Trace π × Op π)} (h : Log q ok x₀ es x) : History q ok x₀ x := by
  induction h with
  | init => exact .init
  | step _ hok hs ih => exact ih.step hok hs

/-- A queue that was just initialised. -/
def start (p : π) : Trace π := ⟨.init p, [], ∅, [], fun _ => 0⟩

section Play

variable (q : QueueRef (RingQueue π) QLabel π)

/-- Runs an operation undisturbed, if its owner may call it. -/
def Op.play (x : Trace π) : Op π → Option (Trace π)
  | .enqueue p => do
    let ((r, t), s) ← (q.enqueue p).exec 100 x.queue
    if r = .success then
      return { x.saw q.cap s with
        tickets := x.tickets ++ [t]
        owned := insert x.tickets.length x.owned
        holder := Function.update x.holder (q.index t) x.tickets.length }
    if r = .error then
      return x.saw q.cap s
    none
  | .outqueue => do
    let (_, s) ← q.outqueue.exec 100 x.queue
    return x.saw q.cap s
  | .peek => do
    let (_, s) ← q.peekHeadModeClean.exec 100 x.queue
    return x.saw q.cap s
  | .advance => do
    let (_, s) ← q.advanceDeadHead.exec 100 x.queue
    return x.saw q.cap s
  | .clean n => do
    let t ← x.tickets[n]?
    let (_, s) ← (q.cleanTimeout t).exec 100 x.queue
    if n ∈ x.owned then
      return { x.saw q.cap s with owned := x.owned.erase n }
    none
  | .pop n => do
    let t ← x.tickets[n]?
    let (_, s) ← (q.popHead t).exec 100 x.queue
    if n ∈ x.owned ∧ n ∈ x.notified then
      return { x.saw q.cap s with owned := x.owned.erase n }
    none
  | .handoff t => do
    let (_, s) ← (q.trySelfHandoffIfHead t).exec 100 x.queue
    return x.saw q.cap s

variable {q}

theorem Step.of_play {x y : Trace π} {op : Op π} (h : op.play q x = some y) : Step q x op y := by
  cases op with
  | enqueue p =>
    obtain ⟨⟨⟨r, t⟩, s⟩, hr, h⟩ := Option.bind_eq_some_iff.mp h
    dsimp only at h
    split at h
    · subst r
      cases h
      exact .enqueue (run_of_exec hr)
    · split at h
      · subst r
        cases h
        exact .full (run_of_exec hr)
      · cases h
  | outqueue =>
    obtain ⟨⟨r, s⟩, hr, h⟩ := Option.bind_eq_some_iff.mp h
    cases h
    exact .outqueue (run_of_exec hr)
  | peek =>
    obtain ⟨⟨r, s⟩, hr, h⟩ := Option.bind_eq_some_iff.mp h
    cases h
    exact .peek (run_of_exec hr)
  | advance =>
    obtain ⟨⟨r, s⟩, hr, h⟩ := Option.bind_eq_some_iff.mp h
    cases h
    exact .advance (run_of_exec hr)
  | clean n =>
    obtain ⟨t, ht, h⟩ := Option.bind_eq_some_iff.mp h
    obtain ⟨⟨r, s⟩, hr, h⟩ := Option.bind_eq_some_iff.mp h
    dsimp only at h
    split at h
    · cases h
      exact .clean ‹_› ht (run_of_exec hr)
    · cases h
  | pop n =>
    obtain ⟨t, ht, h⟩ := Option.bind_eq_some_iff.mp h
    obtain ⟨⟨r, s⟩, hr, h⟩ := Option.bind_eq_some_iff.mp h
    dsimp only at h
    split at h
    · rename_i hn
      cases h
      exact .pop hn.1 hn.2 ht (run_of_exec hr)
    · cases h
  | handoff t =>
    obtain ⟨⟨r, s⟩, hr, h⟩ := Option.bind_eq_some_iff.mp h
    cases h
    exact .handoff (run_of_exec hr)

variable (q) in
/-- Runs operations one after the other, as long as they meet the check. -/
def play (ok : Trace π → Op π → Bool) :
    List (Op π) → List (Trace π × Op π) → Trace π → Option (List (Trace π × Op π) × Trace π)
  | [], es, x => some (es, x)
  | op :: ops, es, x =>
    if ok x op then (op.play q x).bind (play ok ops ((x, op) :: es)) else none

theorem Log.play {ok : Trace π → Op π → Prop} [∀ x op, Decidable (ok x op)] {ops : List (Op π)}
    {es : List (Trace π × Op π)} {x₀ x : Trace π} {r : List (Trace π × Op π) × Trace π}
    (h : Log q ok x₀ es x) (hr : play q (fun x op => ok x op) ops es x = some r) :
    Log q ok x₀ r.1 r.2 := by
  induction ops generalizing es x with
  | nil =>
    cases hr
    exact h
  | cons op ops ih =>
    rw [WaitQueue.play] at hr
    split at hr
    · rename_i hok
      obtain ⟨x', hx', hr⟩ := Option.bind_eq_some_iff.mp hr
      exact ih (h.step (of_decide_eq_true hok) (.of_play hx')) hr
    · cases hr

/-- Reading a property off a list of operations. -/
theorem log_of_play (ok : Trace π → Op π → Prop) [∀ x op, Decidable (ok x op)] (x₀ : Trace π)
    (ops : List (Op π)) (P : List (Trace π × Op π) → Trace π → Prop) [∀ es x, Decidable (P es x)]
    (h : (play q (fun x op => ok x op) ops [] x₀).any (fun r => P r.1 r.2) = true) :
    ∃ es x, Log q ok x₀ es x ∧ P es x := by
  obtain ⟨r, hr, hp⟩ := (Option.any_eq_true _ _).mp h
  exact ⟨r.1, r.2, Log.init.play hr, of_decide_eq_true hp⟩

end Play

/-! ### A queue in order -/

/-- The slots of the entries from head to tail. -/
def window (cap : ℕ) (s : RingQueue π) : List ℕ :=
  (List.range (u32Sub s.tail s.head)).map fun j => u32 (s.head + j) % cap

/-- Somebody waits in the slot. -/
def Live (s : RingQueue π) (i : ℕ) : Prop :=
  (s.slots i).seq = .waiting ∨ (s.slots i).seq = .notified

instance (s : RingQueue π) (i : ℕ) : Decidable (Live s i) :=
  inferInstanceAs (Decidable (_ ∨ _))

/-- Bounded, counted, and notified first come, first served. -/
structure Orderly (cap : ℕ) (x : Trace π) : Prop where
  room : u32Sub x.queue.tail x.queue.head ≤ cap
  counted : x.queue.count = ((window cap x.queue).filter (Live x.queue)).length
  outside : ∀ i < cap, i ∉ window cap x.queue →
    (x.queue.slots i).seq = .empty ∨ (x.queue.slots i).seq = .timeout
  first : ∀ i < cap, (x.queue.slots i).seq = .notified → (window cap x.queue).head? = some i
  sorted : x.notified.Pairwise (· < ·)
  unskipped : ∀ i ∈ window cap x.queue, (x.queue.slots i).seq = .waiting →
    ∀ m ∈ x.notified, m < x.holder i

/-! ### The entries that an operation notifies -/

section Newly

variable {cap i : ℕ} {s s' : RingQueue π}

theorem newly_eq_nil (h : ∀ i < cap, (s'.slots i).seq = .notified → (s.slots i).seq = .notified) :
    newly cap s s' = [] := by
  refine List.filter_eq_nil_iff.mpr fun i hi hd => ?_
  obtain ⟨hn, hne⟩ := of_decide_eq_true hd
  exact hne (h i (List.mem_range.mp hi) hn)

theorem newly_update {x : Slot π} (hs' : s'.slots = Function.update s.slots i x)
    (hx : x.seq ≠ .notified) : newly cap s s' = [] := by
  refine newly_eq_nil fun j _ hj => ?_
  rcases eq_or_ne j i with rfl | hne
  · rw [hs', Function.update_self] at hj
    exact absurd hj hx
  · rwa [hs', Function.update_of_ne hne] at hj

theorem newly_notifyHead (hcap : 0 < cap) (hw : (s.slots (s.head % cap)).seq = .waiting) :
    newly cap s (notifyHead cap s) = [s.head % cap] := by
  have hlt : s.head % cap < cap := Nat.mod_lt _ hcap
  have hiff : ∀ i, (((notifyHead cap s).slots i).seq = .notified ∧ (s.slots i).seq ≠ .notified) ↔
      i = s.head % cap := by
    intro i
    rcases eq_or_ne i (s.head % cap) with rfl | hne
    · simp [notifyHead, hw]
    · simp [notifyHead, hne]
  unfold newly
  simp only [hiff]
  rw [List.filter_eq, List.count_eq_one_of_mem List.nodup_range (List.mem_range.mpr hlt)]
  rfl

end Newly

/-! ### The invariant -/

/-- The queue holds the entries from number `a` on; those notified are older than the head entry,
or the head entry itself. -/
structure Fifo (cap : ℕ) (x : Trace π) (a : ℕ) : Prop where
  rep : Rep cap x.queue a x.tickets.length x.owned
  tickets : ∀ n t, x.tickets[n]? = some t → t = u32 n
  holder : ∀ n, a ≤ n → n < x.tickets.length → x.holder (n % cap) = n
  sorted : x.notified.Pairwise (· < ·)
  old : ∀ m ∈ x.notified, m < a ∨
    m = a ∧ a < x.tickets.length ∧ (x.queue.slots (a % cap)).seq ≠ .waiting

theorem fifo_start (cap : ℕ) (p : π) : Fifo cap (start p) 0 where
  rep := rep_init cap p
  tickets := by simp [start]
  holder := by simp [start]
  sorted := .nil
  old := by simp [start]

section Fifo

variable {cap a a' : ℕ} {x : Trace π} {s : RingQueue π} {owned : Finset ℕ}

/-- Operations that notify nobody and give out no ticket. -/
theorem Fifo.keep (h : Fifo cap x a) (ha : a ≤ a')
    (hr : Rep cap s a' x.tickets.length owned) (hnew : newly cap x.queue s = [])
    (hslot : (x.queue.slots (a % cap)).seq ≠ .waiting → (s.slots (a % cap)).seq ≠ .waiting) :
    Fifo cap { x.saw cap s with owned := owned } a' := by
  have hnot : (x.saw cap s).notified = x.notified := by
    simp [Trace.saw, hnew]
  refine ⟨hr, h.tickets, fun n hn hn' => h.holder n (by omega) hn', ?_, ?_⟩
  · rw [hnot]
    exact h.sorted
  · rw [hnot]
    intro m hm
    rcases h.old m hm with hlt | ⟨rfl, hb, hw⟩
    · exact .inl (by omega)
    · rcases Nat.lt_or_eq_of_le ha with hlt | rfl
      · exact .inl hlt
      · exact .inr ⟨rfl, hb, hslot hw⟩

theorem Fifo.same (h : Fifo cap x a) : Fifo cap (x.saw cap x.queue) a :=
  h.keep (Nat.le_refl a) h.rep (newly_eq_nil fun _ _ hn => hn) id

/-- How far an operation moves the head. -/
def Op.moves (x : Trace π) (a a' : ℕ) : Op π → Prop
  | .peek | .advance => a ≤ a' ∧ (a' = x.tickets.length ∨ a' ∈ x.owned)
  | .pop n => n = a ∧ a' = a + 1
  | _ => a' = a

theorem Fifo.skip (h : Fifo cap x a) (hs : Cleaned cap x.queue a x.tickets.length x.owned s) :
    ∃ a', Fifo cap (x.saw cap s) a' ∧ a ≤ a' ∧ (a' = x.tickets.length ∨ a' ∈ x.owned) := by
  obtain ⟨a', ha, hr, rfl, hstop⟩ := hs
  exact ⟨a', h.keep ha hr (newly_eq_nil fun _ _ hn => hn) id, ha, hstop⟩

/-- The head entry becomes NOTIFIED: everything notified before it is older. -/
theorem Fifo.notify (h : Fifo cap x a) (hcap : Sized cap)
    (hw : (x.queue.slots (x.queue.head % cap)).seq = .waiting) :
    Fifo cap (x.saw cap (notifyHead cap x.queue)) a := by
  have hhead := h.rep.index_head hcap
  have hw' : (x.queue.slots (a % cap)).seq = .waiting := hhead ▸ hw
  have hmem := h.rep.mem_of_waiting hw'
  have hlt := (h.rep.window a hmem).2
  have hnot : (x.saw cap (notifyHead cap x.queue)).notified = x.notified ++ [a] := by
    simp [Trace.saw, newly_notifyHead hcap.pos hw, hhead, h.holder a (Nat.le_refl a) hlt]
  have hold : ∀ m ∈ x.notified, m < a := by
    intro m hm
    rcases h.old m hm with hma | ⟨-, -, hne⟩
    · exact hma
    · exact absurd hw' hne
  refine ⟨?_, h.tickets, h.holder, ?_, ?_⟩
  · refine h.rep.write (Nat.le_refl a) hlt (by rw [← hhead]; rfl) rfl rfl h.rep.count
      (fun _ _ => Iff.rfl) ?_
    exact .inl ⟨hmem, .inr ⟨rfl, rfl⟩⟩
  · rw [hnot]
    refine List.pairwise_append.mpr ⟨h.sorted, List.pairwise_singleton _ _, ?_⟩
    intro m hm m' hm'
    rw [List.mem_singleton.mp hm']
    exact hold m hm
  · rw [hnot]
    intro m hm
    rcases List.mem_append.mp hm with hm | hm
    · exact .inl (hold m hm)
    · refine .inr ⟨List.mem_singleton.mp hm, hlt, ?_⟩
      simp [Trace.saw, notifyHead, hhead]

theorem Fifo.enqueue (h : Fifo cap x a) (hfree : x.tickets.length < a + cap) {p : π}
    (hs : s = { x.queue with
      tail := u32 (x.tickets.length + 1)
      slots := Function.update x.queue.slots (x.tickets.length % cap) ⟨.waiting, p⟩
      count := x.queue.count + 1 }) :
    Fifo cap { x.saw cap s with
      tickets := x.tickets ++ [u32 x.tickets.length]
      owned := insert x.tickets.length x.owned
      holder := Function.update x.holder (x.tickets.length % cap) x.tickets.length } a := by
  subst hs
  have hle := h.rep.le
  have hslot : ∀ n, a ≤ n → n < x.tickets.length → n % cap ≠ x.tickets.length % cap :=
    fun n hn hn' he => Nat.ne_of_lt hn' (eq_of_mod_eq hn (by omega) hle hfree he)
  have hnew : newly cap x.queue { x.queue with
      tail := u32 (x.tickets.length + 1)
      slots := Function.update x.queue.slots (x.tickets.length % cap) ⟨.waiting, p⟩
      count := x.queue.count + 1 } = [] := newly_update rfl (by simp)
  refine ⟨?_, ?_, ?_, ?_, ?_⟩
  · rw [List.length_append]
    exact h.rep.push hfree rfl rfl rfl rfl (congrArg (· + 1) h.rep.count)
  · intro n t ht
    rcases Nat.lt_or_ge n x.tickets.length with hn | hn
    · rw [List.getElem?_append_left hn] at ht
      exact h.tickets n t ht
    · rw [List.getElem?_append_right hn, List.getElem?_singleton] at ht
      split at ht
      · cases ht
        rw [show n = x.tickets.length by omega]
      · cases ht
  · intro n hn hn'
    rw [List.length_append, List.length_singleton] at hn'
    rcases eq_or_ne n x.tickets.length with rfl | hne
    · exact Function.update_self ..
    · have hlt : n < x.tickets.length := by omega
      exact (Function.update_of_ne (hslot n hn hlt) _ _).trans (h.holder n hn hlt)
  · simpa [Trace.saw, hnew] using h.sorted
  · intro m hm
    have hm : m ∈ x.notified := by simpa [Trace.saw, hnew] using hm
    rcases h.old m hm with hlt | ⟨rfl, hb, hw⟩
    · exact .inl hlt
    · refine .inr ⟨rfl, ?_, ?_⟩
      · rw [List.length_append]
        exact Nat.lt_succ_of_lt hb
      · simpa [Trace.saw, Function.update_of_ne (hslot m (Nat.le_refl m) hb)] using hw

/-- An entry is given up. -/
theorem Fifo.clean {n : ℕ} {p : π} (h : Fifo cap x a) (hn : n ∈ x.owned)
    (hs : s = { x.queue with
      slots := Function.update x.queue.slots (n % cap) ⟨.timeout, p⟩
      count := x.queue.count - 1 }) :
    Fifo cap { x.saw cap s with owned := x.owned.erase n } a := by
  subst hs
  have hw := h.rep.window n hn
  refine h.keep (Nat.le_refl a) ?_ (newly_update rfl (by simp)) ?_
  · refine h.rep.write hw.1 hw.2 rfl rfl rfl ?_ (fun m hm => by simp [hm]) (.inr ⟨by simp, rfl⟩)
    rw [Finset.card_erase_of_mem hn, h.rep.count]
  · intro hne
    rcases eq_or_ne (a % cap) (n % cap) with he | he
    · simp [he]
    · simpa [Function.update_of_ne he] using hne

/-- What was notified and is still owned is the head entry; it goes. -/
theorem Fifo.pop {n : ℕ} {p : π} (h : Fifo cap x a) (hn : n ∈ x.owned)
    (hnot : n ∈ x.notified)
    (hs : s = { x.queue with
      slots := Function.update x.queue.slots (n % cap) ⟨.empty, p⟩
      head := u32 (x.queue.head + 1)
      count := x.queue.count - 1 }) :
    Fifo cap { x.saw cap s with owned := x.owned.erase n } (a + 1) ∧ n = a := by
  subst hs
  have hw := h.rep.window n hn
  obtain rfl : n = a := by
    rcases h.old n hnot with hlt | ⟨hna, -⟩
    · omega
    · exact hna
  refine ⟨?_, rfl⟩
  refine h.keep (Nat.le_succ n) ?_ (newly_update rfl (by simp)) fun _ => by simp
  refine h.rep.pop hw.2 rfl hn rfl ?_ rfl ?_
  · show u32 (x.queue.head + 1) = u32 (n + 1)
    rw [h.rep.head, u32_succ]
  · show x.queue.count - 1 = x.owned.card - 1
    rw [h.rep.count]

/-- One operation keeps the queue first in, first out. -/
theorem Fifo.step {reset : π} {modeOf : π → Mode} {op : Op π} {y : Trace π} (hcap : Sized cap)
    (h : Fifo cap x a) (hs : Step (queue cap reset modeOf) x op y) :
    ∃ a', Fifo cap y a' ∧ op.moves x a a' := by
  have hticket : ∀ n t, x.tickets[n]? = some t → t % cap = n % cap := by
    intro n t ht
    rw [h.tickets n t ht, mod_u32 hcap.dvd]
  cases hs with
  | @enqueue p t s hrun =>
    rcases hrun.sound (ends_enqueue hcap h.rep) with ⟨he, -⟩ | ⟨ht, hfree, hs⟩
    · cases he
    · cases ht
      have hi : (queue cap reset modeOf).index (u32 x.tickets.length) = x.tickets.length % cap :=
        mod_u32 hcap.dvd _
      rw [hi]
      exact ⟨a, h.enqueue hfree hs, rfl⟩
  | full hrun =>
    rcases hrun.sound (ends_enqueue hcap h.rep) with ⟨-, -, rfl⟩ | ⟨ht, -⟩
    · exact ⟨a, h.same, rfl⟩
    · cases ht
  | outqueue hrun =>
    rcases hrun.sound ends_outqueue with rfl | ⟨hw, rfl⟩
    · exact ⟨a, h.same, rfl⟩
    · exact ⟨a, h.notify hcap hw, rfl⟩
  | peek hrun => exact h.skip (hrun.sound (ends_peekHeadModeClean hcap h.rep))
  | advance hrun => exact h.skip (hrun.sound (ends_advanceDeadHead hcap h.rep))
  | @clean n t s hn ht hrun =>
    have hs := hrun.sound (ends_cleanTimeout (by
      rw [hticket n t ht]
      exact (h.rep.waits n hn).imp_right And.right))
    rw [hticket n t ht] at hs
    exact ⟨a, h.clean hn hs, rfl⟩
  | @pop n t s hn hnot ht hrun =>
    have hs := hrun.sound ends_popHead
    rw [hticket n t ht] at hs
    obtain ⟨hf, hna⟩ := h.pop hn hnot hs
    exact ⟨a + 1, hf, hna, rfl⟩
  | handoff hrun =>
    rcases hrun.sound ends_trySelfHandoffIfHead with rfl | ⟨hw, rfl⟩
    · exact ⟨a, h.same, rfl⟩
    · exact ⟨a, h.notify hcap hw, rfl⟩

theorem History.fifo {reset p₀ : π} {modeOf : π → Mode} {ok : Trace π → Op π → Prop}
    (hcap : Sized cap) (h : History (queue cap reset modeOf) ok (start p₀) x) :
    ∃ a, Fifo cap x a := by
  induction h with
  | init => exact ⟨0, fifo_start cap p₀⟩
  | step _ _ hs ih =>
    obtain ⟨a, ha⟩ := ih
    obtain ⟨a', ha', -⟩ := ha.step hcap hs
    exact ⟨a', ha'⟩

end Fifo

/-! ### The window, by numbers -/

section Numbers

variable {cap a b : ℕ} {s : RingQueue π} {live : Finset ℕ}

theorem Rep.window_eq (h : Rep cap s a b live) (hcap : Sized cap) :
    WaitQueue.window cap s = (List.range (b - a)).map fun j => (a + j) % cap := by
  have hj : ∀ j, u32 (u32 a + j) % cap = (a + j) % cap := by
    intro j
    rw [show u32 (u32 a + j) = u32 (a + j) from Nat.mod_add_mod a _ j, mod_u32 hcap.dvd]
  unfold WaitQueue.window
  rw [h.head, h.tail, u32Sub_window h.le h.room hcap.lt]
  simp only [hj]

theorem Rep.mem_window (h : Rep cap s a b live) (hcap : Sized cap) {i : ℕ} :
    i ∈ WaitQueue.window cap s ↔ ∃ n, a ≤ n ∧ n < b ∧ n % cap = i := by
  rw [h.window_eq hcap, List.mem_map]
  constructor
  · rintro ⟨j, hj, rfl⟩
    have hlt := List.mem_range.mp hj
    exact ⟨a + j, by omega, by omega, rfl⟩
  · rintro ⟨n, hn, hn', rfl⟩
    exact ⟨n - a, List.mem_range.mpr (by omega), by rw [Nat.add_sub_cancel' hn]⟩

/-- The entries somebody waits in are those not given up. -/
theorem Rep.live_iff (h : Rep cap s a b live) {n : ℕ} (hn : a ≤ n) (hn' : n < b) :
    Live s (n % cap) ↔ n ∈ live := by
  constructor
  · intro hl
    by_contra hnot
    have hd := h.dead n hn hn' hnot
    rcases hl with hl | hl <;> simp [hd] at hl
  · intro hl
    exact (h.waits n hl).imp_right And.right

theorem Rep.length_live (h : Rep cap s a b live) (hcap : Sized cap) :
    ((WaitQueue.window cap s).filter (Live s)).length = live.card := by
  rw [h.window_eq hcap, List.filter_map, List.length_map]
  have hf : (List.range (b - a)).filter ((fun i => decide (Live s i)) ∘ fun j => (a + j) % cap) =
      (List.range (b - a)).filter fun j => a + j ∈ live := by
    refine List.filter_congr fun j hj => ?_
    have hlt := List.mem_range.mp hj
    exact decide_eq_decide.mpr (h.live_iff (by omega) (by omega))
  have hcard : ((List.range (b - a)).filter fun j => a + j ∈ live).length =
      ((Finset.range (b - a)).filter fun j => a + j ∈ live).card := rfl
  rw [hf, hcard]
  refine Finset.card_bij (fun j _ => a + j) (fun j hj => (Finset.mem_filter.mp hj).2)
    (fun j _ j' _ he => Nat.add_left_cancel he) fun n hn => ?_
  have hw := h.window n hn
  have hadd : a + (n - a) = n := Nat.add_sub_cancel' hw.1
  refine ⟨n - a, Finset.mem_filter.mpr ⟨Finset.mem_range.mpr (by omega), ?_⟩, hadd⟩
  rwa [hadd]

end Numbers

/-- Every history keeps the queue in order. -/
theorem orderly_of_history {k : ℕ} {reset p₀ : π} {modeOf : π → Mode} {x : Trace π} (hk : k < 32)
    (h : History (queue (2 ^ k) reset modeOf) (fun _ _ => True) (start p₀) x) :
    Orderly (2 ^ k) x := by
  have hcap := sized_two_pow hk
  obtain ⟨a, hf⟩ := h.fifo hcap
  have hr := hf.rep
  refine ⟨?_, ?_, ?_, ?_, hf.sorted, ?_⟩
  · rw [hr.head, hr.tail, u32Sub_window hr.le hr.room hcap.lt]
    exact Nat.sub_le_iff_le_add'.mpr hr.room
  · rw [hr.count, hr.length_live hcap]
  · intro i _ hi
    refine hr.outside i fun n hn hn' he => hi ?_
    exact (hr.mem_window hcap).mpr ⟨n, hn, hn', he⟩
  · intro i _ hi
    by_cases hmem : ∃ n, a ≤ n ∧ n < x.tickets.length ∧ n % 2 ^ k = i
    · obtain ⟨n, hn, hn', rfl⟩ := hmem
      have hlive := (hr.live_iff hn hn').mp (.inr hi)
      rcases hr.waits n hlive with hw | ⟨rfl, -⟩
      · simp [hw] at hi
      · rw [hr.window_eq hcap]
        have hpos : 0 < x.tickets.length - n := by omega
        simp [List.head?_range, Nat.ne_of_gt hpos]
    · rcases hr.outside i fun n hn hn' he => hmem ⟨n, hn, hn', he⟩ with he | he <;> simp [he] at hi
  · intro i hi hw m hm
    obtain ⟨n, hn, hn', rfl⟩ := (hr.mem_window hcap).mp hi
    rw [hf.holder n hn hn']
    rcases hf.old m hm with hlt | ⟨rfl, -, hne⟩
    · omega
    · rcases eq_or_ne n m with rfl | hnm
      · exact absurd hw hne
      · omega

/-- Two slots used three times: the second waiter gives up, the third is woken after the first. -/
theorem orderly_of_history_wrapped :
    ∃ x, History (queue 2 () fun _ => Mode.x) (fun _ _ => True) (start ()) x ∧
      x.notified = [0, 2] ∧ window 2 x.queue = [0] ∧ Orderly 2 x := by
  obtain ⟨es, x, hx, hn, hw⟩ := log_of_play (q := queue 2 () fun _ => Mode.x) (fun _ _ => True)
    (start ()) [.enqueue (), .enqueue (), .outqueue, .pop 0, .enqueue (), .clean 1, .peek, .outqueue]
    (fun _ x => x.notified = [0, 2] ∧ window 2 x.queue = [0]) (by decide +kernel)
  exact ⟨x, hx.history, hn, hw, orderly_of_history (k := 1) (by decide) hx.history⟩

end WaitQueue

end UbsAtomic
