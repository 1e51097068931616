import UbsAtomic.Lock.WaitQueueRuns

/-! When a wait queue is full.

    Entries that were given up stay in the window until a waker steps over them, and a release looks
    at the queue only when `waiting_count > 0`. So CAP waiters that time out, one after the other,
    leave a window of CAP dead entries and nobody who would ever clean it.

        [ TIMEOUT | TIMEOUT | … | TIMEOUT ]   tail - head = CAP, waiting_count = 0
                                              enqueue: UB_LOCK_ERROR, from now on -/

namespace UbsAtomic

open Conc Conc.Prog

namespace WaitQueue

variable {π : Type}

/-- The operations of a release that wakes. -/
def Op.wakes : Op π → Bool
  | .outqueue | .peek | .advance => true
  | _ => false

/-- Releases look at the queue only when somebody is counted. -/
def Gated (x : Trace π) (op : Op π) : Prop := op.wakes = true → 0 < x.queue.count

instance (x : Trace π) (op : Op π) : Decidable (Gated x op) :=
  inferInstanceAs (Decidable (_ → _))

section Full

variable {cap a b : ℕ} {s : RingQueue π} {live : Finset ℕ}

/-- A full window refuses. -/
theorem Rep.refuses (h : Rep cap s a b live) (hcap : Sized cap) (hfull : b = a + cap)
    (reset p : π) (modeOf : π → Mode) :
    ∃ t, ((queue cap reset modeOf).enqueue p).Run s (.error, t) s := by
  obtain ⟨⟨r, t⟩, s', hrun, -⟩ := (enqueue_returns reset p modeOf).exists_run
  rcases hrun.sound (ends_enqueue hcap h) with ⟨hr, -, hs⟩ | ⟨-, hlt, -⟩
  · cases hr
    cases hs
    exact ⟨t, hrun⟩
  · omega

end Full

/-! ### Who gave up, and whose entry was collected -/

/-- The operations that step over dead entries. -/
def Op.cleans : Op π → Bool
  | .peek | .advance => true
  | _ => false

/-- The entry whose owner gives up. -/
def Op.gives : Op π → Option ℕ
  | .clean n => some n
  | _ => none

/-- The numbers of the waiters that timed out. -/
def timedOut (es : List (Trace π × Op π)) : List ℕ := es.filterMap fun e => e.2.gives

/-- A release looked at the queue when the first waiter in it had come after the n-th. -/
def Collected (es : List (Trace π × Op π)) (n : ℕ) : Prop :=
  ∃ e ∈ es, e.2.cleans = true ∧ ∃ m ∈ e.1.owned, n < m ∧ ∀ l ∈ e.1.owned, m ≤ l

instance (es : List (Trace π × Op π)) (n : ℕ) : Decidable (Collected es n) :=
  inferInstanceAs (Decidable (∃ e ∈ es, _))

/-- The head has passed the dead entries that were collected, and no others. -/
structure Tracked (cap : ℕ) (es : List (Trace π × Op π)) (x : Trace π) (a : ℕ) : Prop where
  fifo : Fifo cap x a
  gone : ∀ n ∈ timedOut es, n < x.tickets.length ∧ n ∉ x.owned
  past : ∀ n, Collected es n → n < a
  collected : ∀ n ∈ timedOut es, n < a → Collected es n
  dead : ∀ n, a ≤ n → n < x.tickets.length → n ∉ x.owned → n ∈ timedOut es

section Tracked

variable {cap a a' n : ℕ} {x y : Trace π} {op : Op π} {e : Trace π × Op π}
  {es : List (Trace π × Op π)} {reset p₀ : π} {modeOf : π → Mode}

theorem mem_timedOut_cons : n ∈ timedOut (e :: es) ↔ e.2.gives = some n ∨ n ∈ timedOut es := by
  simp [timedOut]

theorem Collected.cons (h : Collected es n) : Collected (e :: es) n := by
  obtain ⟨e', he', h⟩ := h
  exact ⟨e', List.mem_cons_of_mem _ he', h⟩

theorem collected_cons (hc : e.2.cleans = false) : Collected (e :: es) n ↔ Collected es n := by
  simp [Collected, hc]

/-- Nobody gives up and no dead entry is stepped over. -/
theorem Tracked.next (h : Tracked cap es x a) (hf : Fifo cap y a') (hc : op.cleans = false)
    (hg : op.gives = none) (ha : a ≤ a') (hlen : x.tickets.length ≤ y.tickets.length)
    (hown : ∀ n < x.tickets.length, n ∈ y.owned → n ∈ x.owned)
    (hpop : ∀ n, a ≤ n → n < a' → n ∈ x.owned)
    (hdead : ∀ n, a' ≤ n → n < y.tickets.length → n ∉ y.owned →
      n < x.tickets.length ∧ n ∉ x.owned) :
    Tracked cap ((x, op) :: es) y a' := by
  have hout : timedOut ((x, op) :: es) = timedOut es := by
    simp [timedOut, hg]
  refine ⟨hf, ?_, ?_, ?_, ?_⟩
  · rw [hout]
    intro n hn
    obtain ⟨hlt, hno⟩ := h.gone n hn
    exact ⟨by omega, fun hy => hno (hown n hlt hy)⟩
  · intro n hn
    have hlt := h.past n ((collected_cons hc).mp hn)
    omega
  · rw [hout]
    intro n hn hlt
    refine (h.collected n hn ?_).cons
    by_contra hge
    exact (h.gone n hn).2 (hpop n (by omega) hlt)
  · rw [hout]
    intro n hn hlt hno
    obtain ⟨hlt', hno'⟩ := hdead n hn hlt hno
    exact h.dead n (by omega) hlt' hno'

/-- A release finds somebody waiting, so the head stops at the first of them. -/
theorem Tracked.look (h : Tracked cap es x a) (hpos : 0 < x.queue.count) (hf : Fifo cap y a')
    (hc : op.cleans = true) (hg : op.gives = none) (ht : y.tickets = x.tickets)
    (ho : y.owned = x.owned) (ha : a ≤ a') (hstop : a' = x.tickets.length ∨ a' ∈ x.owned) :
    Tracked cap ((x, op) :: es) y a' := by
  have hout : timedOut ((x, op) :: es) = timedOut es := by
    simp [timedOut, hg]
  have hwin := hf.rep.window
  rw [ho, ht] at hwin
  have hmem : a' ∈ x.owned := by
    rcases hstop with rfl | hmem
    · rw [h.fifo.rep.count] at hpos
      obtain ⟨m, hm⟩ := Finset.card_pos.mp hpos
      have hw := hwin m hm
      omega
    · exact hmem
  refine ⟨hf, ?_, ?_, ?_, ?_⟩
  · rw [hout, ht, ho]
    exact h.gone
  · rintro n ⟨e, he, hc', m, hm, hlt, hmin⟩
    rcases List.mem_cons.mp he with rfl | he
    · exact Nat.lt_of_lt_of_le hlt (hmin a' hmem)
    · exact Nat.lt_of_lt_of_le (h.past n ⟨e, he, hc', m, hm, hlt, hmin⟩) ha
  · intro n _ hlt
    exact ⟨(x, op), List.mem_cons_self, hc, a', hmem, hlt, fun l hl => (hwin l hl).1⟩
  · rw [hout, ht, ho]
    intro n hn
    exact h.dead n (by omega)

/-- A waiter gives up. -/
theorem Tracked.giveUp (h : Tracked cap es x a) (hn : n ∈ x.owned) (hf : Fifo cap y a)
    (ht : y.tickets = x.tickets) (ho : y.owned = x.owned.erase n) :
    Tracked cap ((x, .clean n) :: es) y a := by
  have hw := h.fifo.rep.window n hn
  have hout : ∀ m, m ∈ timedOut ((x, .clean n) :: es) ↔ n = m ∨ m ∈ timedOut es := by
    simp [mem_timedOut_cons, Op.gives]
  refine ⟨hf, ?_, fun m hm => h.past m ((collected_cons rfl).mp hm), ?_, ?_⟩
  · intro m hm
    rw [ht, ho, Finset.mem_erase]
    rcases (hout m).mp hm with rfl | hm
    · exact ⟨hw.2, fun he => he.1 rfl⟩
    · exact (h.gone m hm).imp_right fun hno he => hno he.2
  · intro m hm hlt
    rcases (hout m).mp hm with rfl | hm
    · omega
    · exact (h.collected m hm hlt).cons
  · intro m hm hlt hno
    rw [ho, Finset.mem_erase] at hno
    rw [ht] at hlt
    refine (hout m).mpr ((eq_or_ne n m).imp_right fun hne => ?_)
    exact h.dead m hm hlt fun hmem => hno ⟨hne.symm, hmem⟩

theorem Tracked.step (hcap : Sized cap) (h : Tracked cap es x a) (hok : Gated x op)
    (hs : Step (queue cap reset modeOf) x op y) : ∃ a', Tracked cap ((x, op) :: es) y a' := by
  obtain ⟨a', hf, hm⟩ := h.fifo.step hcap hs
  refine ⟨a', ?_⟩
  have hstay : ∀ n, a ≤ n → n < a → n ∈ x.owned := fun n hn hlt => absurd hlt (by omega)
  cases hs with
  | enqueue =>
    obtain rfl := hm
    refine h.next hf rfl rfl (Nat.le_refl _) (by simp) ?_ hstay ?_
    · intro n hn hmem
      exact (Finset.mem_insert.mp hmem).resolve_left (Nat.ne_of_lt hn)
    · intro n _ hlt hno
      obtain ⟨hne, hno⟩ := not_or.mp (mt Finset.mem_insert.mpr hno)
      have hlt := List.length_append ▸ hlt
      exact ⟨by simp at hlt; omega, hno⟩
  | full | outqueue | handoff =>
    obtain rfl := hm
    exact h.next hf rfl rfl (Nat.le_refl _) (Nat.le_refl _) (fun _ _ hmem => hmem) hstay
      fun _ _ hlt hno => ⟨hlt, hno⟩
  | peek | advance => exact h.look (hok rfl) hf rfl rfl rfl rfl hm.1 hm.2
  | clean hn =>
    obtain rfl := hm
    exact h.giveUp hn hf rfl rfl
  | pop hn =>
    obtain ⟨rfl, rfl⟩ := hm
    refine h.next hf rfl rfl (Nat.le_succ _) (Nat.le_refl _) ?_ ?_ ?_
    · exact fun _ _ hmem => Finset.mem_of_mem_erase hmem
    · intro n hge hlt
      rwa [show n = _ from Nat.le_antisymm (Nat.le_of_lt_succ hlt) hge]
    · exact fun n hge hlt hno => ⟨hlt, fun hmem => hno (Finset.mem_erase.mpr ⟨by omega, hmem⟩)⟩

end Tracked

section Dead

variable {cap a : ℕ} {x y : Trace π} {reset p p₀ : π} {modeOf : π → Mode}

/-- A lock attempt that waits in vain. -/
theorem History.attempt {x₀ : Trace π} (p : π) (hcap : Sized cap) (hf : Fifo cap x a)
    (hfree : x.tickets.length < a + cap) (hnone : x.owned = ∅)
    (h : History (queue cap reset modeOf) Gated x₀ x) :
    ∃ y, History (queue cap reset modeOf) Gated x₀ y ∧ Fifo cap y a ∧
      y.tickets.length = x.tickets.length + 1 ∧ y.owned = ∅ := by
  obtain ⟨⟨r, t⟩, s, hrun, -⟩ := (enqueue_returns reset p modeOf).exists_run
  rcases hrun.sound (ends_enqueue hcap hf.rep) with ⟨-, hfull, -⟩ | ⟨hr, -, hs⟩
  · omega
  cases hr
  have hf₁ := hf.enqueue hfree hs
  have h₁ := h.step (by intro hw; cases hw) (.enqueue hrun)
  rw [show (queue cap reset modeOf).index (u32 x.tickets.length) = x.tickets.length % cap from
    mod_u32 hcap.dvd _] at h₁
  have hmem : x.tickets.length ∈ insert x.tickets.length x.owned := Finset.mem_insert_self _ _
  obtain ⟨⟨⟩, s', hrun', -⟩ :=
    (cleanTimeout_returns reset modeOf (u32 x.tickets.length)).exists_run
  have hs' := hrun'.sound (ends_cleanTimeout (by
    rw [mod_u32 hcap.dvd]
    exact (hf₁.rep.waits _ hmem).imp_right And.right))
  rw [mod_u32 hcap.dvd] at hs'
  refine ⟨_, h₁.step (by intro hw; cases hw)
    (.clean hmem List.getElem?_concat_length hrun'), hf₁.clean hmem hs', ?_, ?_⟩
  · exact List.length_append
  · show (insert x.tickets.length x.owned).erase x.tickets.length = ∅
    rw [hnone]
    simp

/-- A window of dead entries only. -/
structure AllDead (cap : ℕ) (x : Trace π) : Prop where
  rep : Rep cap x.queue 0 cap ∅
  none : x.owned = ∅

/-- Nothing ever happens again to a queue full of dead entries. -/
theorem AllDead.step {op : Op π} (hcap : Sized cap) (h : AllDead cap x) (hok : Gated x op)
    (hs : Step (queue cap reset modeOf) x op y) : y.queue = x.queue ∧ AllDead cap y := by
  have hcount : x.queue.count = 0 := h.rep.count
  have hquiet : op.wakes ≠ true := fun hw => by
    have hpos := hok hw
    omega
  have hstay : ∀ s, s = x.queue → (x.saw cap s).queue = x.queue ∧ AllDead cap (x.saw cap s) := by
    rintro _ rfl
    exact ⟨rfl, h.rep, h.none⟩
  cases hs with
  | enqueue hrun =>
    rcases hrun.sound (ends_enqueue hcap h.rep) with ⟨hr, -⟩ | ⟨-, hlt, -⟩
    · cases hr
    · omega
  | full hrun =>
    rcases hrun.sound (ends_enqueue hcap h.rep) with ⟨-, -, hs⟩ | ⟨hr, -⟩
    · exact hstay _ hs
    · cases hr
  | outqueue hrun => exact absurd rfl hquiet
  | peek hrun => exact absurd rfl hquiet
  | advance hrun => exact absurd rfl hquiet
  | clean hn => simp [h.none] at hn
  | pop hn => simp [h.none] at hn
  | handoff hrun =>
    rcases hrun.sound ends_trySelfHandoffIfHead with hs | ⟨hw, -⟩
    · exact hstay _ hs
    · rw [id_eq, h.rep.index_head hcap] at hw
      exact absurd (h.rep.mem_of_waiting hw) (Finset.notMem_empty _)

theorem AllDead.history (hcap : Sized cap) (h : AllDead cap x)
    (hy : History (queue cap reset modeOf) Gated x y) : y.queue = x.queue ∧ AllDead cap y := by
  induction hy with
  | init => exact ⟨rfl, h⟩
  | step _ hok hs ih =>
    obtain ⟨hq, hd⟩ := ih
    obtain ⟨hq', hd'⟩ := hd.step hcap hok hs
    exact ⟨hq'.trans hq, hd'⟩

end Dead

end WaitQueue

end UbsAtomic
