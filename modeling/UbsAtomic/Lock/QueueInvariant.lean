import UbsAtomic.Lock.QueueSteps

/-! The head never passes a live ticket, as long as everybody is careful.

    Each thread knows which tickets are its own and, inside a call, what it has learned about the
    head. `Sane` says what the slots show:

        [head, tail)   live, fresh      EMPTY or TIMEOUT, left by the last lap
                       live             WRITING, WAITING, or NOTIFIED (only the head)
                       dead             TIMEOUT, or EMPTY while the head is being popped
        elsewhere                       EMPTY or TIMEOUT -/

namespace UbsAtomic

open Conc Conc.Prog WaitQueue

namespace QueueSteps

variable {π : Type} {cap n : ℕ} {s s' : Site π} {v : RingQueue π}

/-! ### What the observer makes of a write -/

/-- Nothing that is observed changes. -/
structure Still (s s' : Site π) : Prop where
  head : s'.queue.head = s.queue.head
  tail : s'.queue.tail = s.queue.tail
  seq : ∀ i, (s'.queue.slots i).seq = (s.queue.slots i).seq
  live : s'.live = s.live
  fresh : s'.fresh = s.fresh
  passed : s'.passed = s.passed

theorem still_write (hh : v.head = s.queue.head) (ht : v.tail = s.queue.tail)
    (hs : ∀ i, (v.slots i).seq = (s.queue.slots i).seq) : Still s (s.write cap v) := by
  have hseq : ∀ n, seqAt cap v n = seqAt cap s.queue n := fun n => hs _
  refine ⟨hh, ht, hs, ?_, ?_, ?_⟩
  · simp [Site.write, claimed, ht, Ends, hseq]
  · simp [Site.write, claimed, ht, hseq]
  · simp [Site.write, hh]

/-- The slot of ticket `n` changes to `x`. -/
structure Wrote (cap : ℕ) (s s' : Site π) (n : ℕ) (x : WaitState) : Prop where
  head : s'.queue.head = s.queue.head
  tail : s'.queue.tail = s.queue.tail
  own : seqAt cap s'.queue n = x
  other : ∀ i, i ≠ n % cap → (s'.queue.slots i).seq = (s.queue.slots i).seq
  mem : n ∈ s'.live ↔ x ≠ .timeout ∧ x ≠ .empty
  live : ∀ m, m ≠ n → (m ∈ s'.live ↔ m ∈ s.live)
  fresh : ∀ m, m ∈ s'.fresh ↔ m ≠ n ∧ m ∈ s.fresh
  passed : s'.passed = s.passed

/-! ### The invariant of the memory -/

structure Sane (cap : ℕ) (s : Site π) : Prop where
  le : s.queue.head ≤ s.queue.tail
  room : s.queue.tail ≤ s.queue.head + cap
  bound : s.queue.tail < 4294967296
  live : ∀ n ∈ s.live, s.queue.head ≤ n ∧ n < s.queue.tail
  fresh : ∀ n ∈ s.fresh, n ∈ s.live ∧ (seqAt cap s.queue n = .empty ∨ seqAt cap s.queue n = .timeout)
  busy : ∀ n ∈ s.live, n ∉ s.fresh → seqAt cap s.queue n = .writing ∨
    seqAt cap s.queue n = .waiting ∨ seqAt cap s.queue n = .notified ∧ n = s.queue.head
  dead : ∀ n, s.queue.head ≤ n → n < s.queue.tail → n ∉ s.live →
    seqAt cap s.queue n = .timeout ∨ n = s.queue.head ∧ seqAt cap s.queue n = .empty
  outside : ∀ i, (∀ n, s.queue.head ≤ n → n < s.queue.tail → n % cap ≠ i) →
    (s.queue.slots i).seq = .empty ∨ (s.queue.slots i).seq = .timeout
  passed : s.passed = false

section Sane

theorem Sane.slot_ne (h : Sane cap s) {m : ℕ} (hm : s.queue.head ≤ m) (hm' : m < s.queue.tail)
    (hn : s.queue.head ≤ n) (hn' : n < s.queue.tail) (hne : m ≠ n) : m % cap ≠ n % cap := by
  have hroom := h.room
  exact fun he => hne (eq_of_mod_eq hm (by omega) hn (by omega) he)

theorem Sane.still (h : Sane cap s) (hs : Still s s') : Sane cap s' := by
  have hseq : ∀ n, seqAt cap s'.queue n = seqAt cap s.queue n := fun n => hs.seq _
  refine ⟨?_, ?_, ?_, ?_, ?_, ?_, ?_, ?_, ?_⟩
  · rw [hs.head, hs.tail]
    exact h.le
  · rw [hs.head, hs.tail]
    exact h.room
  · rw [hs.tail]
    exact h.bound
  · rw [hs.head, hs.tail, hs.live]
    exact h.live
  · rw [hs.fresh, hs.live]
    simpa only [hseq] using h.fresh
  · rw [hs.fresh, hs.live, hs.head]
    simpa only [hseq] using h.busy
  · rw [hs.live, hs.head, hs.tail]
    simpa only [hseq] using h.dead
  · rw [hs.head, hs.tail]
    simpa only [hs.seq] using h.outside
  · rw [hs.passed]
    exact h.passed

/-- The store into the slot of a live ticket, when it changes something. -/
theorem Sane.wrote (h : Sane cap s) (hn : n ∈ s.live) {x : WaitState} {p : π}
    (hx : x ≠ seqAt cap s.queue n) (hv : v = { s.queue with
      slots := Function.update s.queue.slots (n % cap) ⟨x, p⟩ }) :
    Wrote cap s (s.write cap v) n x := by
  subst hv
  have hself : ∀ m, m % cap = n % cap → seqAt cap { s.queue with
      slots := Function.update s.queue.slots (n % cap) ⟨x, p⟩ } m = x := by
    intro m hm
    simp [seqAt, hm]
  have hother : ∀ m, m % cap ≠ n % cap → seqAt cap { s.queue with
      slots := Function.update s.queue.slots (n % cap) ⟨x, p⟩ } m = seqAt cap s.queue m := by
    intro m hm
    simp [seqAt, hm]
  have hw := h.live n hn
  refine ⟨rfl, rfl, hself n rfl, fun i hi => by simp [Site.write, hi], ?_, ?_, ?_, ?_⟩
  · have hends : Ends cap s.queue { s.queue with
        slots := Function.update s.queue.slots (n % cap) ⟨x, p⟩ } n ↔ x = .timeout ∨ x = .empty := by
      simp [Ends, hself n rfl, hx]
    simp only [Site.write, claimed, if_true, Finset.union_empty, Finset.mem_filter, hends, hn,
      true_and, not_or]
  · intro m hm
    simp only [Site.write, claimed, if_true, Finset.union_empty, Finset.mem_filter]
    refine ⟨And.left, fun hmem => ⟨hmem, ?_⟩⟩
    have hw' := h.live m hmem
    rintro ⟨hne, -⟩
    exact hne (hother m (h.slot_ne hw'.1 hw'.2 hw.1 hw.2 hm))
  · intro m
    simp only [Site.write, claimed, if_true, Finset.union_empty, Finset.mem_filter]
    rcases eq_or_ne m n with rfl | hm
    · simp [hself m rfl, hx]
    · refine ⟨fun hmem => ⟨hm, hmem.1⟩, fun hmem => ⟨hmem.2, ?_⟩⟩
      have hw' := h.live m (h.fresh m hmem.2).1
      exact hother m (h.slot_ne hw'.1 hw'.2 hw.1 hw.2 hm)
  · simp [Site.write]

/-- What such a store may leave in the slot. -/
theorem Sane.of_wrote (h : Sane cap s) (hn : n ∈ s.live) {x : WaitState} (hw : Wrote cap s s' n x)
    (hx : x = .writing ∨ x = .waiting ∨ x = .timeout ∨
      n = s.queue.head ∧ (x = .notified ∨ x = .empty)) : Sane cap s' := by
  have hwin := h.live n hn
  have hseq : ∀ m, m ≠ n → s.queue.head ≤ m → m < s.queue.tail →
      seqAt cap s'.queue m = seqAt cap s.queue m := by
    intro m hm hm' hm''
    exact hw.other _ (h.slot_ne hm' hm'' hwin.1 hwin.2 hm)
  have hlive : ∀ m ∈ s'.live, m ∈ s.live := by
    intro m hm
    rcases eq_or_ne m n with rfl | hne
    · exact hn
    · exact (hw.live m hne).mp hm
  refine ⟨?_, ?_, ?_, ?_, ?_, ?_, ?_, ?_, ?_⟩
  · rw [hw.head, hw.tail]
    exact h.le
  · rw [hw.head, hw.tail]
    exact h.room
  · rw [hw.tail]
    exact h.bound
  · rw [hw.head, hw.tail]
    exact fun m hm => h.live m (hlive m hm)
  · intro m hm
    obtain ⟨hne, hm⟩ := (hw.fresh m).mp hm
    obtain ⟨hmem, hs⟩ := h.fresh m hm
    have hwin' := h.live m hmem
    rw [hseq m hne hwin'.1 hwin'.2]
    exact ⟨(hw.live m hne).mpr hmem, hs⟩
  · intro m hm hfresh
    rw [hw.head]
    rcases eq_or_ne m n with rfl | hne
    · obtain ⟨hnt, hne⟩ := hw.mem.mp hm
      rw [hw.own]
      rcases hx with hx | hx | hx | ⟨hhead, hx | hx⟩
      · exact .inl hx
      · exact .inr (.inl hx)
      · exact absurd hx hnt
      · exact .inr (.inr ⟨hx, hhead⟩)
      · exact absurd hx hne
    · have hmem := hlive m hm
      have hwin' := h.live m hmem
      rw [hseq m hne hwin'.1 hwin'.2]
      exact h.busy m hmem fun hf => hfresh ((hw.fresh m).mpr ⟨hne, hf⟩)
  · intro m hm hm' hnot
    rw [hw.head] at hm
    rw [hw.tail] at hm'
    rw [hw.head]
    rcases eq_or_ne m n with rfl | hne
    · rw [hw.own]
      have hends : x = .timeout ∨ x = .empty := by
        by_contra hne
        exact hnot (hw.mem.mpr (not_or.mp hne))
      rcases hends with hx' | rfl
      · exact .inl hx'
      · rcases hx with hx | hx | hx | ⟨hhead, -⟩
        · cases hx
        · cases hx
        · cases hx
        · exact .inr ⟨hhead, rfl⟩
    · rw [hseq m hne hm hm']
      exact h.dead m hm hm' fun hmem => hnot ((hw.live m hne).mpr hmem)
  · intro i hi
    rw [hw.head, hw.tail] at hi
    have hin : i ≠ n % cap := fun hin => hi n hwin.1 hwin.2 hin.symm
    rw [hw.other i hin]
    exact h.outside i hi
  · rw [hw.passed]
    exact h.passed

/-- The tail CAS: the next ticket is live and fresh. -/
theorem Sane.claim (h : Sane cap s) (hfree : s.queue.tail < s.queue.head + cap)
    (hbound : s.queue.tail + 1 < 4294967296) (hv : v = { s.queue with tail := s.queue.tail + 1 }) :
    (s.write cap v).live = insert s.queue.tail s.live ∧
      (s.write cap v).fresh = insert s.queue.tail s.fresh ∧ Sane cap (s.write cap v) := by
  subst hv
  have hle := h.le
  have hseq : ∀ m, seqAt cap { s.queue with tail := s.queue.tail + 1 } m = seqAt cap s.queue m :=
    fun _ => rfl
  have hlive : (s.write cap { s.queue with tail := s.queue.tail + 1 }).live =
      insert s.queue.tail s.live := by
    simp [Site.write, claimed, Ends, hseq]
  have hfresh : (s.write cap { s.queue with tail := s.queue.tail + 1 }).fresh =
      insert s.queue.tail s.fresh := by
    simp [Site.write, claimed, hseq]
  have hslot : seqAt cap s.queue s.queue.tail = .empty ∨ seqAt cap s.queue s.queue.tail = .timeout := by
    refine h.outside _ fun m hm hm' he => ?_
    exact Nat.ne_of_lt hm' (eq_of_mod_eq hm (by omega) hle hfree he)
  refine ⟨hlive, hfresh, ?_⟩
  refine ⟨Nat.le_succ_of_le hle, hfree, hbound, ?_, ?_, ?_, ?_, ?_, ?_⟩
  · rw [hlive]
    intro m hm
    show s.queue.head ≤ m ∧ m < s.queue.tail + 1
    rcases Finset.mem_insert.mp hm with rfl | hm
    · exact ⟨hle, Nat.lt_succ_self _⟩
    · have hw := h.live m hm
      omega
  · rw [hlive, hfresh]
    intro m hm
    rcases Finset.mem_insert.mp hm with rfl | hm
    · exact ⟨Finset.mem_insert_self _ _, hslot⟩
    · obtain ⟨hmem, hs⟩ := h.fresh m hm
      exact ⟨Finset.mem_insert_of_mem hmem, hs⟩
  · rw [hlive, hfresh]
    intro m hm hnot
    rw [Finset.mem_insert, not_or] at hnot
    exact h.busy m (Finset.mem_of_mem_insert_of_ne hm hnot.1) hnot.2
  · rw [hlive]
    intro m hm hm' hnot
    rw [Finset.mem_insert, not_or] at hnot
    have hm' : m < s.queue.tail + 1 := hm'
    exact h.dead m hm (by omega) hnot.2
  · intro i hi
    exact h.outside i fun m hm hm' => hi m hm (Nat.lt_succ_of_lt hm')
  · have hpassed := h.passed
    simp [Site.write, hpassed]

/-- The head moves over a dead ticket. -/
theorem Sane.advance (h : Sane cap s) (hlt : s.queue.head < s.queue.tail)
    (hdead : s.queue.head ∉ s.live) (hv : v = { s.queue with head := s.queue.head + 1 }) :
    (s.write cap v).live = s.live ∧ (s.write cap v).fresh = s.fresh ∧ Sane cap (s.write cap v) := by
  subst hv
  have hroom := h.room
  have hseq : ∀ m, seqAt cap { s.queue with head := s.queue.head + 1 } m = seqAt cap s.queue m :=
    fun _ => rfl
  have hlive : (s.write cap { s.queue with head := s.queue.head + 1 }).live = s.live := by
    simp [Site.write, claimed, Ends, hseq]
  have hfresh : (s.write cap { s.queue with head := s.queue.head + 1 }).fresh = s.fresh := by
    simp [Site.write, claimed, hseq]
  have hnext : ∀ m ∈ s.live, s.queue.head + 1 ≤ m := by
    intro m hm
    have hw := h.live m hm
    have hne : m ≠ s.queue.head := fun he => hdead (he ▸ hm)
    omega
  refine ⟨hlive, hfresh, hlt, ?_, h.bound, ?_, ?_, ?_, ?_, ?_, ?_⟩
  · show s.queue.tail ≤ s.queue.head + 1 + cap
    omega
  · rw [hlive]
    exact fun m hm => ⟨hnext m hm, (h.live m hm).2⟩
  · rw [hlive, hfresh]
    exact h.fresh
  · rw [hlive, hfresh]
    intro m hm hnot
    have hne : m ≠ s.queue.head := fun he => hdead (he ▸ hm)
    rcases h.busy m hm hnot with hs | hs | ⟨-, he⟩
    · exact .inl hs
    · exact .inr (.inl hs)
    · exact absurd he hne
  · rw [hlive]
    intro m hm hm' hnot
    have hm : s.queue.head + 1 ≤ m := hm
    rcases h.dead m (by omega) hm' hnot with hs | ⟨he, -⟩
    · exact .inl hs
    · omega
  · intro i hi
    have hi : ∀ m, s.queue.head + 1 ≤ m → m < s.queue.tail → m % cap ≠ i := hi
    by_cases hia : s.queue.head % cap = i
    · subst hia
      rcases h.dead s.queue.head (Nat.le_refl _) hlt hdead with hs | ⟨-, hs⟩
      · exact .inr hs
      · exact .inl hs
    · refine h.outside i fun m hm hm' => ?_
      rcases eq_or_ne m s.queue.head with rfl | hne
      · exact hia
      · exact hi m (by omega) hm'
  · have hpassed := h.passed
    simp [Site.write, hpassed, hdead]

end Sane

/-! ### What the threads know -/

/-- What a thread has learned in its call: how far the head is at least, that ticket `h` is dead,
    that the ticket it has claimed is fresh, or that it has emptied the head. -/
inductive Stage where
  | away
  | low (h : ℕ)
  | behind (h : ℕ)
  | gone (h : ℕ)
  | fresh (t : ℕ)
  | popped (t : ℕ)

/-- The live tickets of a thread, and its stage. -/
structure Ghost where
  own : Finset ℕ
  stage : Stage

/-- The head ticket is dead and its slot shows `x`. -/
def HeadDead (cap : ℕ) (s : Site π) (h : ℕ) (x : WaitState) : Prop :=
  h = s.queue.head ∧ h < s.queue.tail ∧ h ∉ s.live ∧ seqAt cap s.queue h = x

def Stands (cap : ℕ) (s : Site π) : Stage → Prop
  | .away => True
  | .low h => h ≤ s.queue.head
  | .behind h => h ≤ s.queue.head ∧ h < s.queue.tail
  | .gone h => h < s.queue.head ∨ HeadDead cap s h .timeout
  | .fresh _ => True
  | .popped t => HeadDead cap s t .empty

structure Inv (cap : ℕ) (s : Site π) (γ : ℕ → Ghost) : Prop where
  sane : Sane cap s
  own : ∀ u, ∀ n ∈ (γ u).own, n ∈ s.live ∧ (n ∈ s.fresh ↔ (γ u).stage = .fresh n)
  apart : ∀ u v n, n ∈ (γ u).own → n ∈ (γ v).own → u = v
  stands : ∀ u, Stands cap s (γ u).stage
  one : ∀ u v t t', (γ u).stage = .popped t → (γ v).stage = .popped t' → u = v

/-- What a thread that owns the tickets `o` can rely on when others move. -/
structure Rely (cap : ℕ) (o : Finset ℕ) (s s' : Site π) : Prop where
  head : s.queue.head ≤ s'.queue.head
  tail : s.queue.tail ≤ s'.queue.tail
  own : ∀ n ∈ o, n ∈ s.live → n ∈ s'.live ∧ (n ∈ s'.fresh ↔ n ∈ s.fresh)
  gone : ∀ h, HeadDead cap s h .timeout → h < s'.queue.head ∨ HeadDead cap s' h .timeout

theorem HeadDead.still {h : ℕ} {x : WaitState} (hs : Still s s') (hd : HeadDead cap s h x) :
    HeadDead cap s' h x := by
  obtain ⟨hh, ht, hl, hx⟩ := hd
  exact ⟨hs.head ▸ hh, hs.tail ▸ ht, hs.live ▸ hl, (hs.seq _).trans hx⟩

theorem Rely.of_still {o : Finset ℕ} (hs : Still s s') : Rely cap o s s' := by
  refine ⟨hs.head.ge, hs.tail.ge, fun n _ hl => ?_, fun h hd => .inr (hd.still hs)⟩
  rw [hs.live, hs.fresh]
  exact ⟨hl, Iff.rfl⟩

/-- What a thread knows stays true; of what it has emptied it has to be told. -/
theorem Stands.mono {o : Finset ℕ} {st : Stage} (h : Stands cap s st) (hr : Rely cap o s s')
    (hp : ∀ t, st = .popped t → HeadDead cap s' t .empty) : Stands cap s' st := by
  cases st with
  | away => trivial
  | fresh t => trivial
  | low h' => exact Nat.le_trans h hr.head
  | behind h' => exact ⟨Nat.le_trans h.1 hr.head, Nat.lt_of_lt_of_le h.2 hr.tail⟩
  | gone h' =>
    rcases h with h | h
    · exact .inl (Nat.lt_of_lt_of_le h hr.head)
    · exact hr.gone h' h
  | popped t => exact hp t rfl

section Inv

variable {γ : ℕ → Ghost} {u : ℕ} {g g' : Ghost} {o : Finset ℕ} {st st' : Stage}

/-- Thread `u` moves. Only the popping thread may move the head while it pops. -/
theorem Inv.step (hi : Inv cap s γ) (hg : γ u = g) (sane : Sane cap s')
    (rely : ∀ v, v ≠ u → Rely cap (γ v).own s s')
    (popped : ∀ v t, v ≠ u → (γ v).stage = .popped t → HeadDead cap s' t .empty)
    (own : ∀ n ∈ g'.own, n ∈ s'.live ∧ (n ∈ s'.fresh ↔ g'.stage = .fresh n))
    (new : ∀ n ∈ g'.own, n ∈ g.own ∨ n ∉ s.live)
    (stands : Stands cap s' g'.stage)
    (one : ∀ t, g'.stage = .popped t → ∀ v t', v ≠ u → (γ v).stage ≠ .popped t') :
    Inv cap s' (Function.update γ u g') := by
  have hapart : ∀ v n, v ≠ u → n ∈ (γ v).own → n ∉ g'.own := by
    intro v n hv hn hn'
    rcases new n hn' with hm | hm
    · exact hv (hi.apart v u n hn (by rwa [hg]))
    · exact hm (hi.own v n hn).1
  refine ⟨sane, fun v => ?_, fun v v' n hn hn' => ?_, fun v => ?_, fun v v' t t' ht ht' => ?_⟩
  · rcases eq_or_ne v u with rfl | hv
    · rwa [Function.update_self]
    · rw [Function.update_of_ne hv]
      intro n hn
      obtain ⟨hl, hf⟩ := hi.own v n hn
      obtain ⟨hl', hf'⟩ := (rely v hv).own n hn hl
      exact ⟨hl', hf'.trans hf⟩
  · rcases eq_or_ne v u with rfl | hv
    · rcases eq_or_ne v' v with rfl | hv'
      · rfl
      · rw [Function.update_self] at hn
        rw [Function.update_of_ne hv'] at hn'
        exact absurd hn (hapart v' n hv' hn')
    · rw [Function.update_of_ne hv] at hn
      rcases eq_or_ne v' u with rfl | hv'
      · rw [Function.update_self] at hn'
        exact absurd hn' (hapart v n hv hn)
      · rw [Function.update_of_ne hv'] at hn'
        exact hi.apart v v' n hn hn'
  · rcases eq_or_ne v u with rfl | hv
    · rwa [Function.update_self]
    · rw [Function.update_of_ne hv]
      exact (hi.stands v).mono (rely v hv) fun t => popped v t hv
  · rcases eq_or_ne v u with rfl | hv
    · rcases eq_or_ne v' v with rfl | hv'
      · rfl
      · rw [Function.update_self] at ht
        rw [Function.update_of_ne hv'] at ht'
        exact absurd ht' (one t ht v' t' hv')
    · rw [Function.update_of_ne hv] at ht
      rcases eq_or_ne v' u with rfl | hv'
      · rw [Function.update_self] at ht'
        exact absurd ht (one t' ht' v t hv)
      · rw [Function.update_of_ne hv'] at ht'
        exact hi.one v v' t t' ht ht'

/-- What another thread has emptied is the head. -/
theorem Inv.headDead (hi : Inv cap s γ) {v t : ℕ} (hv : (γ v).stage = .popped t) :
    HeadDead cap s t .empty := by
  have h := hi.stands v
  rwa [hv] at h

/-- A step that shows the observer nothing. -/
theorem Inv.still (hi : Inv cap s γ) (hs : Still s s') : Inv cap s' γ := by
  refine ⟨hi.sane.still hs, fun v n hn => ?_, hi.apart, fun v => ?_, hi.one⟩
  · rw [hs.live, hs.fresh]
    exact hi.own v n hn
  · exact (hi.stands v).mono (o := ∅) (.of_still hs) fun t ht => (hi.headDead ht).still hs

/-- Neither fresh nor popping. -/
def Stage.plain : Stage → Bool
  | .fresh _ | .popped _ => false
  | _ => true

theorem Stage.plain_iff (hp : st.plain = true) (n : ℕ) : st ≠ .fresh n ∧ st ≠ .popped n := by
  cases st <;> simp_all [Stage.plain]

/-- The own tickets of a thread with nothing fresh. -/
theorem Inv.mine (hi : Inv cap s γ) (hg : γ u = ⟨o, st⟩) (hp : st.plain = true) (hn : n ∈ o) :
    n ∈ s.live ∧ n ∉ s.fresh := by
  have h := hi.own u n (by rwa [hg])
  rw [hg] at h
  exact ⟨h.1, fun hf => (Stage.plain_iff hp n).1 (h.2.mp hf)⟩

/-- A thread learns something. -/
theorem Inv.learn (hi : Inv cap s γ) (hg : γ u = ⟨o, st⟩) (hp : st.plain = true)
    (hp' : st'.plain = true) (stands : Stands cap s st') :
    Inv cap s (Function.update γ u ⟨o, st'⟩) := by
  refine hi.step hg hi.sane (fun v _ => ?_) (fun v t _ ht => hi.headDead ht) (fun n hn => ?_)
    (fun n hn => .inl hn) stands (fun t ht => absurd ht (Stage.plain_iff hp' t).2)
  · exact ⟨Nat.le_refl _, Nat.le_refl _, fun n _ hl => ⟨hl, Iff.rfl⟩, fun h hd => .inr hd⟩
  · obtain ⟨hl, hf⟩ := hi.mine hg hp hn
    exact ⟨hl, fun h => absurd h hf, fun h => absurd h (Stage.plain_iff hp' n).1⟩

/-! ### The steps on the queue -/

/-- A ticket is claimed. -/
theorem Inv.claim {h : ℕ} (hi : Inv cap s γ) (hg : γ u = ⟨o, .low h⟩)
    (hfree : s.queue.tail < h + cap) (hbound : s.queue.tail + 1 < 4294967296)
    (hv : v = { s.queue with tail := s.queue.tail + 1 }) :
    Inv cap (s.write cap v)
      (Function.update γ u ⟨insert s.queue.tail o, .fresh s.queue.tail⟩) := by
  have hlow : h ≤ s.queue.head := by
    have hst := hi.stands u
    rwa [hg] at hst
  obtain ⟨hlive, hfresh, hsane⟩ := hi.sane.claim (Nat.lt_of_lt_of_le hfree (by omega)) hbound hv
  have hnew : s.queue.tail ∉ s.live := fun hl => Nat.lt_irrefl _ (hi.sane.live _ hl).2
  have hdead : ∀ h x, HeadDead cap s h x → HeadDead cap (s.write cap v) h x := by
    rintro h x ⟨hh, ht, hl, hx⟩
    subst hv
    refine ⟨hh, Nat.lt_succ_of_lt ht, ?_, hx⟩
    rw [hlive, Finset.mem_insert, not_or]
    exact ⟨Nat.ne_of_lt ht, hl⟩
  refine hi.step hg hsane (fun v' _ => ?_) (fun v' t _ ht => hdead _ _ (hi.headDead ht))
    (fun n hn => ?_) (fun n hn => ?_) trivial (fun t ht => by cases ht)
  · refine ⟨by subst hv; exact Nat.le_refl _, by subst hv; exact Nat.le_succ _, ?_,
      fun h hd => .inr (hdead _ _ hd)⟩
    intro n _ hl
    have hne : n ≠ s.queue.tail := fun he => hnew (he ▸ hl)
    rw [hlive, hfresh, Finset.mem_insert, Finset.mem_insert]
    exact ⟨.inr hl, by simp [hne]⟩
  · rw [hlive, hfresh]
    rcases Finset.mem_insert.mp hn with rfl | hn
    · simp
    · obtain ⟨hl, hf⟩ := hi.mine hg rfl hn
      have hne : n ≠ s.queue.tail := fun he => hnew (he ▸ hl)
      refine ⟨Finset.mem_insert_of_mem hl, ?_⟩
      rw [Finset.mem_insert]
      simp [hne, hf, Ne.symm hne]
  · rcases Finset.mem_insert.mp hn with rfl | hn
    · exact .inr hnew
    · exact .inl hn

section Wrote

variable {x : WaitState}

theorem HeadDead.wrote {h : ℕ} {y : WaitState} (hs : Sane cap s) (hn : n ∈ s.live)
    (hw : Wrote cap s s' n x) (hd : HeadDead cap s h y) : HeadDead cap s' h y := by
  obtain ⟨hh, ht, hl, hy⟩ := hd
  have hne : h ≠ n := fun he => hl (he ▸ hn)
  have hwin := hs.live n hn
  refine ⟨hw.head ▸ hh, hw.tail ▸ ht, fun hl' => hl ((hw.live h hne).mp hl'), ?_⟩
  exact (hw.other _ (hs.slot_ne hh.ge ht hwin.1 hwin.2 hne)).trans hy

/-- The others do not mind a store into a slot that is not theirs, or that keeps it live. -/
theorem Rely.of_wrote (hs : Sane cap s) (hn : n ∈ s.live) (hw : Wrote cap s s' n x)
    (ho : n ∈ o → n ∈ s'.live ∧ n ∉ s.fresh) : Rely cap o s s' := by
  refine ⟨hw.head.ge, hw.tail.ge, fun m hm hl => ?_, fun h hd => .inr (hd.wrote hs hn hw)⟩
  rcases eq_or_ne m n with rfl | hne
  · obtain ⟨hl', hf⟩ := ho hm
    refine ⟨hl', ?_⟩
    rw [hw.fresh]
    simp [hf]
  · refine ⟨(hw.live m hne).mpr hl, ?_⟩
    rw [hw.fresh]
    simp [hne]

/-- An owner stores into the slot of its ticket. -/
theorem Inv.wrote (hi : Inv cap s γ) (st' : Stage) (hg : γ u = ⟨o, st⟩) (hn : n ∈ o)
    (hst : st = .fresh n ∨ st.plain = true) (hw : Wrote cap s s' n x)
    (hx : x = .writing ∨ x = .waiting ∨ x = .timeout ∨
      n = s.queue.head ∧ (x = .notified ∨ x = .empty))
    (hst' : Stands cap s' st') (hp' : ∀ m, st' ≠ .fresh m) (hpop : ∀ t, st' = .popped t → t = n) :
    Inv cap s' (Function.update γ u ⟨o.filter (· ∈ s'.live), st'⟩) := by
  have hl : n ∈ s.live := (hi.own u n (by rwa [hg])).1
  have hothers : ∀ v, v ≠ u → n ∉ (γ v).own :=
    fun v hv hm => hv (hi.apart v u n hm (by rwa [hg]))
  refine hi.step hg (hi.sane.of_wrote hl hw hx) (fun v hv => ?_)
    (fun v t _ ht => (hi.headDead ht).wrote hi.sane hl hw) (fun m hm => ?_) (fun m hm => ?_) hst'
    (fun t ht v t' hv hv' => ?_)
  · exact .of_wrote hi.sane hl hw fun hm => absurd hm (hothers v hv)
  · obtain ⟨hmo, hml⟩ := Finset.mem_filter.mp hm
    refine ⟨hml, fun hf => ?_, fun hf => absurd hf (hp' m)⟩
    obtain ⟨hne, hf⟩ := (hw.fresh m).mp hf
    have hown := hi.own u m (by rwa [hg])
    rw [hg] at hown
    have hfm : st = .fresh m := hown.2.mp hf
    rcases hst with rfl | hst
    · exact absurd (Stage.fresh.inj hfm).symm hne
    · exact absurd hfm (Stage.plain_iff hst m).1
  · exact .inl (Finset.mem_filter.mp hm).1
  · -- Were somebody else popping the head, it would not be this thread's live ticket.
    have ht : st' = .popped t := ht
    obtain rfl := hpop t ht
    rw [ht] at hst'
    have hhead : t = s.queue.head := hst'.1.trans hw.head
    obtain ⟨hh, -, hdead, -⟩ := hi.headDead hv'
    exact hdead (hh.trans hhead.symm ▸ hl)

/-- The head entry is notified, by whomever. -/
theorem Inv.notify (hi : Inv cap s γ) (hg : γ u = ⟨o, st⟩) (hp : st.plain = true)
    (hn : n ∈ s.live) (hfresh : n ∉ s.fresh) (hhead : n = s.queue.head)
    (hw : Wrote cap s s' n .notified) : Inv cap s' (Function.update γ u ⟨o, .away⟩) := by
  have hl' : n ∈ s'.live := hw.mem.mpr (by decide)
  refine hi.step hg (hi.sane.of_wrote hn hw (.inr (.inr (.inr ⟨hhead, .inl rfl⟩))))
    (fun v _ => .of_wrote hi.sane hn hw fun _ => ⟨hl', hfresh⟩)
    (fun v t _ ht => (hi.headDead ht).wrote hi.sane hn hw) (fun m hm => ?_) (fun m hm => .inl hm)
    trivial (fun t ht => by cases ht)
  obtain ⟨hl, hf⟩ := hi.mine hg hp hm
  refine ⟨?_, fun h => absurd ((hw.fresh m).mp h).2 hf, fun h => by cases h⟩
  rcases eq_or_ne m n with rfl | hne
  · exact hl'
  · exact (hw.live m hne).mpr hl

end Wrote

/-- The head moves on from a dead ticket; whoever popped it is the one who moves it. -/
theorem Inv.advance (hi : Inv cap s γ) (hg : γ u = ⟨o, st⟩) (hst : ∀ t, st ≠ .fresh t)
    (hlt : s.queue.head < s.queue.tail) (hdead : s.queue.head ∉ s.live)
    (hpop : ∀ v t, v ≠ u → (γ v).stage ≠ .popped t)
    (hv : v = { s.queue with head := s.queue.head + 1 }) :
    Inv cap (s.write cap v) (Function.update γ u ⟨o, .away⟩) := by
  obtain ⟨hlive, hfresh, hsane⟩ := hi.sane.advance hlt hdead hv
  have hhead : (s.write cap v).queue.head = s.queue.head + 1 := by
    subst hv
    rfl
  refine hi.step hg hsane (fun v' _ => ?_) (fun v' t hv' ht => absurd ht (hpop v' t hv'))
    (fun n hn => ?_) (fun n hn => .inl hn) trivial (fun t ht => by cases ht)
  · refine ⟨?_, ?_, fun n _ hl => ?_, fun h hd => ?_⟩
    · rw [hhead]
      exact Nat.le_succ _
    · subst hv
      exact Nat.le_refl _
    · rw [hlive, hfresh]
      exact ⟨hl, Iff.rfl⟩
    · rw [hhead, hd.1]
      exact .inl (Nat.lt_succ_self _)
  · have hown := hi.own u n (by rwa [hg])
    rw [hg] at hown
    rw [hlive, hfresh]
    exact ⟨hown.1, fun hf => absurd (hown.2.mp hf) (hst n), fun h => by cases h⟩

end Inv

end QueueSteps

end UbsAtomic
