import UbsAtomic.Lock.QueueInvariant

/-! Every call of the wait queue keeps the invariant, and so does every run of careful steps.

    What a thread learns on its way, and what it needs it for:

        load head        low h       the head is at least h
        load tail        behind h    h < tail
        load slot h      gone h      TIMEOUT, and not fresh: h is dead or already passed
        head CAS from h              so the CAS moves the head over a dead ticket or fails -/

namespace UbsAtomic

open Conc Conc.Prog WaitQueue

namespace QueueSteps

variable {π : Type} {cap n : ℕ}

/-! ### The calls -/

variable (cap) in
def outline : Outline ℕ (Site π) QLabel Ghost where
  inv := Inv cap
  lab := fun _ _ => True
  cond := Careful cap
  claim := fun _ _ _ => True

section Calls

variable {reset p : π} {modeOf : π → Mode} {u t : ℕ} {o : Finset ℕ} {g : Ghost}

abbrev Does (cap u : ℕ) {α : Type} (c : Prog (Site π) QLabel α) (Q : α → Ghost → Prop) (g : Ghost) :
    Prop :=
  wp (outline cap) u (fun _ _ => True) c Q g

/-- Steps that show the observer nothing. -/
abbrev Unseen {α : Type} (c : Prog (Site π) QLabel α) : Prop := Quiet Still (fun _ => True) c

theorem stable : (outline (π := π) cap).Stable u (fun _ _ => True) Still (fun _ => True) g :=
  ⟨fun _ _ _ _ hs hi => hi.still hs, trivial, fun _ _ => trivial, fun _ _ _ => trivial, trivial⟩

theorem still_refl (s : Site π) : Still s s := ⟨rfl, rfl, fun _ => rfl, rfl, rfl, rfl⟩

theorem unseen_load {α : Type} {e : QLabel} {place : Place (Site π) α} : Unseen (loadAt e place) :=
  .read trivial still_refl

theorem still_count (s : Site π) (c : ℕ) : Still s ((queue cap reset modeOf).count.set c s) :=
  still_write rfl rfl fun _ => rfl

theorem still_payload (i : ℕ) (s : Site π) (x : π) :
    Still s (((queue cap reset modeOf).payload i).set x s) := by
  refine still_write rfl rfl fun j => ?_
  rcases eq_or_ne j i with rfl | hne
  · simp [queue]
  · simp [queue, hne]

theorem unseen_tryDecCount : Unseen (queue cap reset modeOf).tryDecCount := by
  refine .bind unseen_load fun _ => .loop fun _ => .ite trivial ?_
  exact .bind (.casWeak trivial still_refl fun s => still_count s _) fun _ => trivial

theorem unseen_payload {e : QLabel} {i : ℕ} {x : π} :
    Unseen (storeAt e ((queue cap reset modeOf).payload i) x) :=
  .write trivial fun s => still_payload i s x

theorem wp_unseen {α β : Type} {c : Prog (Site π) QLabel α} {k : α → Prog (Site π) QLabel β}
    {Q : β → Ghost → Prop} (hc : Unseen c) (h : ∀ a, Does cap u (k a) Q g) :
    Does cap u (c.bind k) Q g := by
  refine wp_bind (wp_mono (hc.wp stable) ?_)
  rintro a _ - rfl
  exact h a

/-- Between its steps on the queue a thread owns `o` and may remember what it has learned. -/
def Idle (o : Finset ℕ) (g : Ghost) : Prop := ∃ st : Stage, st.plain = true ∧ g = ⟨o, st⟩

/-- The head is loaded: it will not be smaller later. -/
theorem wp_loadHead {β : Type} {e : QLabel} {k : ℕ → Prog (Site π) QLabel β} {Q : β → Ghost → Prop}
    (hg : Idle o g) (h : ∀ h', h' < 4294967296 → Does cap u (k h') Q ⟨o, .low h'⟩) :
    Does cap u ((loadAt e (queue cap reset modeOf).head).bind k) Q g := by
  obtain ⟨st, hp, rfl⟩ := hg
  refine wp_bind (wp_read trivial fun s γ hpre => ⟨trivial, ⟨o, .low s.queue.head⟩, trivial, ?_, trivial,
    h _ (Nat.lt_of_le_of_lt hpre.inv.sane.le hpre.inv.sane.bound)⟩)
  exact hpre.inv.learn hpre.own hp rfl (Nat.le_refl _)

/-- What a thread before a step knows. -/
theorem stands_of_pre {e : QLabel} {st : Stage} {s : Site π} {γ : ℕ → Ghost}
    (hpre : (outline cap).Pre u e ⟨o, st⟩ s γ) : Stands cap s st := by
  have hst := hpre.inv.stands u
  rwa [hpre.own] at hst

theorem mine_of_pre {e : QLabel} {st : Stage} {s : Site π} {γ : ℕ → Ghost}
    (hpre : (outline cap).Pre u e ⟨o, st⟩ s γ) (hp : st.plain = true) (hn : n ∈ o) :
    n ∈ s.live ∧ n ∉ s.fresh :=
  hpre.inv.mine hpre.own hp hn

theorem wp_takeTicket (hg : Idle o g) :
    Does cap u (queue cap reset modeOf).takeTicket
      (fun r g' => r = none ∧ Idle o g' ∨ ∃ t, r = some t ∧ g' = ⟨insert t o, .fresh t⟩) g := by
  refine wp_loop (fun _ g => Idle o g) trivial hg ?_
  intro _ g hg
  refine wp_loadHead hg fun h hh => ?_
  refine wp_bind (wp_learn trivial trivial trivial fun s γ hpre => ⟨trivial, ?_⟩)
  have hlow : h ≤ s.queue.head := stands_of_pre hpre
  have hle := hpre.inv.sane.le
  have hbound := hpre.inv.sane.bound
  have hsub : u32Sub s.queue.tail h = s.queue.tail - h := by
    unfold u32Sub u32
    omega
  have htail : (queue cap reset modeOf).tail.get s = s.queue.tail := rfl
  rw [htail, hsub]
  generalize s.queue.tail = t at *
  split
  · exact ⟨trivial, .inl ⟨rfl, .low h, rfl, rfl⟩⟩
  · rename_i hfree
    have hfree : t < h + cap := by
      have hlt : t - h < cap := Nat.not_le.mp hfree
      omega
    refine wp_bind (wp_casWeak trivial fun s γ hpre => ⟨trivial, fun ht => ?_, ?_⟩)
    · have ht : s.queue.tail = t := ht
      subst ht
      have hnext : s.queue.tail + 1 < 4294967296 := by
        obtain ⟨ℓ, -, hc⟩ := hpre.run
        exact hc
      refine ⟨⟨insert s.queue.tail o, .fresh s.queue.tail⟩, trivial, ?_, trivial, trivial, .inr
        ⟨_, rfl, rfl⟩⟩
      refine hpre.inv.claim hpre.own hfree hnext ?_
      show { s.queue with tail := u32 (s.queue.tail + 1) } = _
      rw [u32, Nat.mod_eq_of_lt hnext]
    · refine ⟨⟨o, .low h⟩, trivial, ?_, trivial, trivial, .low h, rfl, rfl⟩
      rw [hpre.update]
      exact hpre.inv

theorem wrote_seq (reset : π) (modeOf : π → Mode) {x : WaitState} {s : Site π} (hs : Sane cap s)
    (hn : n ∈ s.live)
    (hx : x ≠ seqAt cap s.queue n) :
    Wrote cap s (((queue cap reset modeOf).seq (n % cap)).set x s) n x :=
  hs.wrote hn hx rfl

theorem still_seq {x : WaitState} {s : Site π} (hx : x = seqAt cap s.queue n) :
    Still s (((queue cap reset modeOf).seq (n % cap)).set x s) := by
  refine still_write rfl rfl fun j => ?_
  rcases eq_or_ne j (n % cap) with rfl | hne
  · simpa [queue, seqAt] using hx
  · simp [queue, hne]

/-- The own tickets after a store that keeps them live, and after one that ends ticket `t`. -/
theorem own_keep {x : WaitState} {s s' : Site π} (hmine : ∀ m ∈ o, m ∈ s.live)
    (hw : Wrote cap s s' t x) (hx : x ≠ .timeout ∧ x ≠ .empty) : o.filter (· ∈ s'.live) = o := by
  refine Finset.filter_true_of_mem fun m hm => ?_
  rcases eq_or_ne m t with rfl | hne
  · exact hw.mem.mpr hx
  · exact (hw.live m hne).mpr (hmine m hm)

theorem own_erase {x : WaitState} {s s' : Site π} (hmine : ∀ m ∈ o, m ∈ s.live)
    (hw : Wrote cap s s' t x) (hx : x = .timeout ∨ x = .empty) :
    o.filter (· ∈ s'.live) = o.erase t := by
  ext m
  rw [Finset.mem_filter, Finset.mem_erase]
  rcases eq_or_ne m t with rfl | hne
  · have hnot : m ∉ s'.live := fun hm => by
      obtain ⟨h1, h2⟩ := hw.mem.mp hm
      exact hx.elim h1 h2
    simp [hnot]
  · rw [hw.live m hne]
    exact ⟨fun h => ⟨hne, h.1⟩, fun h => ⟨h.2, hmine m h.2⟩⟩

/-- WRITING into the slot just claimed. -/
theorem wp_storeWriting {e : QLabel} (hn : t ∈ o) :
    Does cap u (storeAt e ((queue cap reset modeOf).seq (t % cap)) .writing)
      (fun _ g => g = ⟨o, .away⟩) ⟨o, .fresh t⟩ := by
  refine wp_store trivial fun s γ hpre => ⟨trivial, ⟨o, .away⟩, trivial, ?_, trivial, rfl⟩
  have hown : ∀ m ∈ o, m ∈ s.live := fun m hm => (hpre.inv.own u m (by rw [hpre.own]; exact hm)).1
  have hfresh : t ∈ s.fresh := (hpre.inv.own u t (by rw [hpre.own]; exact hn)).2.mpr (by rw [hpre.own])
  have hne : WaitState.writing ≠ seqAt cap s.queue t := by
    rcases (hpre.inv.sane.fresh t hfresh).2 with he | he <;> simp [he]
  have hw := wrote_seq reset modeOf hpre.inv.sane (hown t hn) hne
  have h := hpre.inv.wrote .away hpre.own hn (.inl rfl) hw (.inl rfl) trivial (by simp)
    (by simp)
  rwa [own_keep hown hw (by decide)] at h

/-- WAITING into the slot of an own ticket. -/
theorem wp_storeWaiting {e : QLabel} (hn : t ∈ o) :
    Does cap u (storeAt e ((queue cap reset modeOf).seq (t % cap)) .waiting)
      (fun _ g => g = ⟨o, .away⟩) ⟨o, .away⟩ := by
  refine wp_store trivial fun s γ hpre => ⟨trivial, ⟨o, .away⟩, trivial, ?_, trivial, rfl⟩
  have hown : ∀ m ∈ o, m ∈ s.live := fun m hm => (mine_of_pre hpre rfl hm).1
  rcases eq_or_ne WaitState.waiting (seqAt cap s.queue t) with he | hne
  · rw [hpre.update]
    exact hpre.inv.still (still_seq he)
  · have hw := wrote_seq reset modeOf hpre.inv.sane (hown t hn) hne
    have h := hpre.inv.wrote .away hpre.own hn (.inr rfl) hw (.inr (.inl rfl)) trivial
      (by simp) (by simp)
    rwa [own_keep hown hw (by decide)] at h

/-- `ring_queue_enqueue`. -/
theorem wp_enqueue (hg : Idle o g) :
    Does cap u ((queue cap reset modeOf).enqueue p)
      (fun r g' => r.1 ≠ .success ∧ Idle o g' ∨ r.1 = .success ∧ Idle (insert r.2 o) g') g := by
  refine wp_bind (wp_mono (wp_takeTicket hg) ?_)
  rintro _ _ - (⟨rfl, hg⟩ | ⟨t, rfl, rfl⟩)
  · exact ⟨trivial, .inl ⟨by decide, hg⟩⟩
  · have hmem : t ∈ insert t o := Finset.mem_insert_self t o
    refine wp_unseen unseen_load fun _ => ?_
    refine wp_bind (wp_mono (wp_storeWriting hmem) ?_)
    rintro _ _ - rfl
    refine wp_unseen unseen_payload fun _ => ?_
    refine wp_bind (wp_mono (wp_storeWaiting hmem) ?_)
    rintro _ _ - rfl
    refine wp_unseen (.rmw trivial fun s c => still_count s c) fun _ => ?_
    exact ⟨trivial, .inr ⟨rfl, .away, rfl, rfl⟩⟩

/-- Busy, as the owner of a live ticket finds its slot. -/
def Busy (x : WaitState) : Prop := x = .writing ∨ x = .waiting ∨ x = .notified

theorem busy_of_pre {e : QLabel} {st : Stage} {s : Site π} {γ : ℕ → Ghost}
    (hpre : (outline cap).Pre u e ⟨o, st⟩ s γ) (hp : st.plain = true) (hn : t ∈ o) :
    Busy (seqAt cap s.queue t) := by
  obtain ⟨hl, hf⟩ := mine_of_pre hpre hp hn
  rcases hpre.inv.sane.busy t hl hf with h | h | ⟨h, -⟩
  · exact .inl h
  · exact .inr (.inl h)
  · exact .inr (.inr h)

/-- `ring_queue_clean_timeout` on an own ticket. -/
theorem wp_cleanTimeout (hn : t ∈ o) (hg : Idle o g) :
    Does cap u ((queue cap reset modeOf).cleanTimeout t) (fun _ g' => Idle (o.erase t) g') g := by
  obtain ⟨st, hp, rfl⟩ := hg
  refine wp_bind (wp_bind (wp_learn trivial trivial trivial fun s γ hpre => ⟨trivial, ?_⟩))
  refine wp_loop (fun x g => Busy x ∧ g = ⟨o, st⟩) trivial ⟨busy_of_pre hpre hp hn, rfl⟩ ?_
  rintro x _ ⟨hx, rfl⟩
  rw [if_pos (show x = .writing ∨ x = .waiting ∨ x = .notified from hx)]
  refine wp_bind (wp_casWeak trivial fun s γ hpre => ⟨trivial, fun he => ?_, ?_⟩)
  · refine ⟨⟨o.erase t, .away⟩, trivial, ?_, trivial, ?_⟩
    · have hown : ∀ m ∈ o, m ∈ s.live := fun m hm => (mine_of_pre hpre hp hm).1
      have he : seqAt cap s.queue t = x := he
      have hne : WaitState.timeout ≠ seqAt cap s.queue t := by
        rw [he]
        rcases hx with rfl | rfl | rfl <;> decide
      have hw := wrote_seq reset modeOf hpre.inv.sane (hown t hn) hne
      have h := hpre.inv.wrote .away hpre.own hn (.inr hp) hw (.inr (.inr (.inl rfl))) trivial
        (by simp) (by simp)
      rwa [own_erase hown hw (.inl rfl)] at h
    · refine wp_unseen unseen_payload fun _ => wp_unseen unseen_tryDecCount fun _ => ?_
      exact ⟨trivial, trivial, .away, rfl, rfl⟩
  · refine ⟨⟨o, st⟩, trivial, ?_, trivial, trivial, busy_of_pre hpre hp hn, rfl⟩
    rw [hpre.update]
    exact hpre.inv

/-- Behind the tail the head does not wrap. -/
theorem next_head {r : RingQueue π} (hlt : r.head < r.tail) (hbound : r.tail < 4294967296) :
    { r with head := u32 (r.head + 1) } = { r with head := r.head + 1 } := by
  rw [u32, Nat.mod_eq_of_lt (by omega)]

/-- EMPTY into the slot of an own ticket that was notified: it is the head. -/
theorem wp_storeEmpty (hn : t ∈ o) {st : Stage} (hp : st.plain = true) :
    Does cap u (storeAt (.popHead t) ((queue cap reset modeOf).seq (t % cap)) .empty)
      (fun _ g => g = ⟨o.erase t, .popped t⟩) ⟨o, st⟩ := by
  refine wp_store trivial fun s γ hpre =>
    ⟨trivial, ⟨o.erase t, .popped t⟩, trivial, ?_, trivial, rfl⟩
  have hown : ∀ m ∈ o, m ∈ s.live := fun m hm => (mine_of_pre hpre hp hm).1
  obtain ⟨hl, hf⟩ := mine_of_pre hpre hp hn
  have hnot : seqAt cap s.queue t = .notified := by
    obtain ⟨ℓ, -, hc⟩ := hpre.run
    exact hc
  have hhead : t = s.queue.head := by
    rcases hpre.inv.sane.busy t hl hf with h | h | ⟨-, h⟩
    · rw [hnot] at h
      cases h
    · rw [hnot] at h
      cases h
    · exact h
  have hw := wrote_seq reset modeOf hpre.inv.sane hl
    (x := .empty) (by rw [hnot]; decide)
  have hdead : HeadDead cap (((queue cap reset modeOf).seq (t % cap)).set .empty s) t .empty := by
    refine ⟨hhead.trans hw.head.symm, ?_, fun hm => (hw.mem.mp hm).2 rfl, hw.own⟩
    rw [hw.tail]
    exact (hpre.inv.sane.live t hl).2
  have h := hpre.inv.wrote (.popped t) hpre.own hn (.inr hp) hw
    (.inr (.inr (.inr ⟨hhead, .inr rfl⟩))) hdead (by simp) (fun _ ht => (Stage.popped.inj ht).symm)
  rwa [own_erase hown hw (.inr rfl)] at h

/-- `ring_queue_pop_head` of an own ticket. -/
theorem wp_popHead (hn : t ∈ o) (hg : Idle o g) :
    Does cap u ((queue cap reset modeOf).popHead t) (fun _ g' => Idle (o.erase t) g') g := by
  obtain ⟨st, hp, rfl⟩ := hg
  refine wp_bind (wp_mono (wp_storeEmpty hn hp) ?_)
  rintro _ _ - rfl
  refine wp_unseen unseen_payload fun _ => ?_
  refine wp_bind (wp_rmw trivial fun s γ hpre => ?_)
  obtain ⟨hhead, hlt, hdead, -⟩ := (stands_of_pre hpre : HeadDead cap s t .empty)
  subst hhead
  refine ⟨trivial, ⟨o.erase s.queue.head, .away⟩, trivial, ?_, trivial, ?_⟩
  · refine hpre.inv.advance hpre.own (by simp) hlt hdead (fun v t hv ht => ?_)
      (next_head hlt hpre.inv.sane.bound)
    have hmine : (γ u).stage = .popped s.queue.head := by rw [hpre.own]
    exact hv (hpre.inv.one v u _ _ ht hmine)
  · exact wp_mono (unseen_tryDecCount.wp stable) fun _ _ _ hg => ⟨.away, rfl, hg⟩

/-- A slot inside the queue that shows WAITING belongs to a live ticket. -/
theorem live_of_waiting {s : Site π} (hs : Sane cap s) (hw : seqAt cap s.queue s.queue.head = .waiting) :
    s.queue.head ∈ s.live ∧ s.queue.head ∉ s.fresh := by
  have hlt : s.queue.head < s.queue.tail := by
    by_contra hge
    rcases hs.outside (s.queue.head % cap) fun n hn hn' => absurd (Nat.lt_of_le_of_lt hn hn') hge with
      h | h
    · exact WaitState.noConfusion (hw.symm.trans h)
    · exact WaitState.noConfusion (hw.symm.trans h)
  have hl : s.queue.head ∈ s.live := by
    by_contra hdead
    rcases hs.dead _ (Nat.le_refl _) hlt hdead with h | ⟨-, h⟩
    · exact WaitState.noConfusion (hw.symm.trans h)
    · exact WaitState.noConfusion (hw.symm.trans h)
  refine ⟨hl, fun hf => ?_⟩
  rcases (hs.fresh _ hf).2 with h | h
  · exact WaitState.noConfusion (hw.symm.trans h)
  · exact WaitState.noConfusion (hw.symm.trans h)

/-- WAITING to NOTIFIED on the head entry. -/
theorem wp_notify {e : QLabel} {h : ℕ} {st : Stage} (hp : st.plain = true)
    (hhead : ∀ (s : Site π) γ, (outline cap).Pre u e ⟨o, st⟩ s γ → seqAt cap s.queue h = .waiting →
      h = s.queue.head) :
    Does cap u (casAt e ((queue cap reset modeOf).seq (h % cap)) .waiting .notified)
      (fun _ g => Idle o g) ⟨o, st⟩ := by
  refine wp_cas trivial fun s γ hpre => ⟨trivial, fun hx => ?_, fun _ => ?_⟩
  · have hx : seqAt cap s.queue h = .waiting := hx
    obtain rfl := hhead s γ hpre hx
    obtain ⟨hl, hf⟩ := live_of_waiting hpre.inv.sane hx
    refine ⟨⟨o, .away⟩, trivial, ?_, trivial, .away, rfl, rfl⟩
    exact hpre.inv.notify hpre.own hp hl hf rfl (wrote_seq _ _ hpre.inv.sane hl (by rw [hx]; decide))
  · refine ⟨⟨o, st⟩, trivial, ?_, trivial, st, hp, rfl⟩
    rw [hpre.update]
    exact hpre.inv

/-- `ring_queue_outqueue`. -/
theorem wp_outqueue (hg : Idle o g) :
    Does cap u (queue cap reset modeOf).outqueue (fun _ g' => Idle o g') g := by
  refine wp_loop (fun _ g => Idle o g) trivial hg ?_
  intro sanity g hg
  split
  · exact ⟨trivial, hg⟩
  refine wp_loadHead hg fun h _ => wp_unseen unseen_load fun x => ?_
  split
  · exact ⟨trivial, .low h, rfl, rfl⟩
  split
  · refine wp_bind (wp_mono (wp_notify rfl fun s γ hpre _ => ?_) ?_)
    · obtain ⟨ℓ, -, hc⟩ := hpre.run
      exact hc.symm
    · rintro ⟨ok, y⟩ g' - hg'
      cases ok with
      | true => exact ⟨trivial, hg'⟩
      | false => exact ⟨trivial, hg'⟩
  · exact ⟨trivial, .low h, rfl, rfl⟩

/-- `ring_queue_try_self_handoff_if_head`: the head has not moved past an own ticket. -/
theorem wp_handoff (hn : t ∈ o) (hg : Idle o g) :
    Does cap u ((queue cap reset modeOf).trySelfHandoffIfHead t) (fun _ g' => Idle o g') g := by
  refine wp_loadHead hg fun h _ => wp_unseen unseen_load fun x => ?_
  have hidle : Idle o ⟨o, .low h⟩ := ⟨.low h, rfl, rfl⟩
  split
  · exact ⟨trivial, hidle⟩
  split
  · exact ⟨trivial, hidle⟩
  · rename_i hht
    obtain rfl := not_not.mp hht
    refine wp_bind (wp_mono (wp_notify rfl fun s γ hpre _ => ?_) fun _ _ _ hg' => ⟨trivial, hg'⟩)
    have hle : h ≤ s.queue.head := stands_of_pre hpre
    have hge := (hpre.inv.sane.live h (mine_of_pre hpre rfl hn).1).1
    exact Nat.le_antisymm hle hge

/-- The head and the tail are loaded, and differ. -/
theorem wp_loadTail {β : Type} {e : QLabel} {h : ℕ} {k : ℕ → Prog (Site π) QLabel β}
    {Q : β → Ghost → Prop} (hstop : ∀ t, h = t → Does cap u (k t) Q ⟨o, .low h⟩)
    (hgo : ∀ t, h ≠ t → Does cap u (k t) Q ⟨o, .behind h⟩) :
    Does cap u ((loadAt e (queue cap reset modeOf).tail).bind k) Q ⟨o, .low h⟩ := by
  refine wp_bind (wp_read trivial fun s γ hpre => ⟨trivial, ?_⟩)
  have hlow : h ≤ s.queue.head := stands_of_pre hpre
  by_cases he : h = s.queue.tail
  · refine ⟨⟨o, .low h⟩, trivial, ?_, trivial, hstop _ he⟩
    rw [hpre.update]
    exact hpre.inv
  · refine ⟨⟨o, .behind h⟩, trivial, ?_, trivial, hgo _ he⟩
    refine hpre.inv.learn hpre.own rfl rfl ⟨hlow, ?_⟩
    exact Nat.lt_of_le_of_ne (Nat.le_trans hlow hpre.inv.sane.le) he

/-- The slot of the head is loaded; TIMEOUT tells that the ticket is dead, if it is not fresh. -/
theorem wp_loadSlot {β : Type} {h : ℕ} {k : WaitState → Prog (Site π) QLabel β}
    {Q : β → Ghost → Prop} (hgone : Does cap u (k .timeout) Q ⟨o, .gone h⟩)
    (hother : ∀ x, x ≠ .timeout → Does cap u (k x) Q ⟨o, .behind h⟩) :
    Does cap u ((loadAt (.headSlot h) ((queue cap reset modeOf).seq (h % cap))).bind k) Q
      ⟨o, .behind h⟩ := by
  refine wp_bind (wp_read trivial fun s γ hpre => ⟨trivial, ?_⟩)
  have hseq : ((queue cap reset modeOf).seq (h % cap)).get s = seqAt cap s.queue h := rfl
  rw [hseq]
  rcases eq_or_ne (seqAt cap s.queue h) .timeout with hx | hx
  · rw [hx]
    refine ⟨⟨o, .gone h⟩, trivial, ?_, trivial, hgone⟩
    obtain ⟨hle, hlt⟩ := (stands_of_pre hpre : h ≤ s.queue.head ∧ h < s.queue.tail)
    have hfresh : h ∉ s.fresh := by
      obtain ⟨ℓ, -, hc⟩ := hpre.run
      exact hc
    refine hpre.inv.learn hpre.own rfl rfl ?_
    rcases Nat.lt_or_eq_of_le hle with hlt' | rfl
    · exact .inl hlt'
    · refine .inr ⟨rfl, hlt, fun hl => ?_, hx⟩
      rcases hpre.inv.sane.busy _ hl hfresh with hy | hy | ⟨hy, -⟩
      · exact WaitState.noConfusion (hx.symm.trans hy)
      · exact WaitState.noConfusion (hx.symm.trans hy)
      · exact WaitState.noConfusion (hx.symm.trans hy)
  · refine ⟨⟨o, .behind h⟩, trivial, ?_, trivial, hother _ hx⟩
    rw [hpre.update]
    exact hpre.inv

/-- The head is moved over a ticket known to be dead, unless it has moved already. -/
theorem wp_advanceCas {e : QLabel} {h : ℕ} :
    Does cap u (casWeakAt e (queue cap reset modeOf).head h (u32 (h + 1))) (fun _ g => Idle o g)
      ⟨o, .gone h⟩ := by
  refine wp_casWeak trivial fun s γ hpre => ⟨trivial, fun hh => ?_, ?_⟩
  · have hh : s.queue.head = h := hh
    subst hh
    refine ⟨⟨o, .away⟩, trivial, ?_, trivial, .away, rfl, rfl⟩
    rcases (stands_of_pre hpre : _ ∨ HeadDead cap s s.queue.head .timeout) with
      hlt | ⟨-, hlt, hdead, hx⟩
    · exact absurd hlt (Nat.lt_irrefl _)
    · refine hpre.inv.advance hpre.own (by simp) hlt hdead (fun v t _ ht => ?_)
        (next_head hlt hpre.inv.sane.bound)
      -- Whoever pops has emptied the slot, and this one shows TIMEOUT.
      obtain ⟨rfl, -, -, hy⟩ := hpre.inv.headDead ht
      exact WaitState.noConfusion (hx.symm.trans hy)
  · refine ⟨⟨o, .gone h⟩, trivial, ?_, trivial, .gone h, rfl, rfl⟩
    rw [hpre.update]
    exact hpre.inv

/-- `ring_queue_advance_dead_head`. -/
theorem wp_advance (hg : Idle o g) :
    Does cap u (queue cap reset modeOf).advanceDeadHead (fun _ g' => Idle o g') g := by
  refine wp_loop (fun _ g => Idle o g) trivial hg ?_
  intro _ g hg
  refine wp_loadHead hg fun h _ => wp_loadTail (fun t ht => ?_) fun t ht => ?_
  · rw [if_pos ht]
    exact ⟨trivial, .low h, rfl, rfl⟩
  · rw [if_neg ht]
    refine wp_loadSlot ?_ fun x hx => ?_
    · rw [if_pos rfl]
      exact wp_bind (wp_mono wp_advanceCas fun _ _ _ hg' => ⟨trivial, hg'⟩)
    · rw [if_neg hx]
      exact ⟨trivial, .behind h, rfl, rfl⟩

/-- `ring_queue_peek_head_mode_clean`. -/
theorem wp_peek (hg : Idle o g) :
    Does cap u (queue cap reset modeOf).peekHeadModeClean (fun _ g' => Idle o g') g := by
  refine wp_loop (fun _ g => Idle o g) trivial hg ?_
  intro _ g hg
  refine wp_loadHead hg fun h _ => wp_loadTail (fun t ht => ?_) fun t ht => ?_
  · rw [if_pos ht]
    exact ⟨trivial, .low h, rfl, rfl⟩
  · rw [if_neg ht]
    have hidle : Idle o ⟨o, .behind h⟩ := ⟨.behind h, rfl, rfl⟩
    refine wp_loadSlot ?_ fun x hx => ?_
    · exact wp_bind (wp_mono wp_advanceCas fun _ _ _ hg' => ⟨trivial, hg'⟩)
    · cases x with
      | timeout => exact absurd rfl hx
      | waiting => exact wp_unseen unseen_load fun _ => ⟨trivial, hidle⟩
      | writing => exact ⟨trivial, hidle⟩
      | notified => exact ⟨trivial, hidle⟩
      | empty => exact ⟨trivial, hidle⟩

end Calls

/-! ### Runs -/

section Runs

variable {reset p₀ : π} {modeOf : π → Mode}

variable (cap) in
/-- Between its calls a thread owns what it holds. -/
def spec : Spec ℕ (Site π) QLabel (Op π) (Option ℕ) (Finset ℕ) Ghost where
  toOutline := outline cap
  rest := fun _ held g => Idle held g
  moves := fun _ _ _ _ => True
  good := fun _ _ _ _ => True

theorem proved : (spec (π := π) cap).Proved (client cap reset modeOf) where
  stay := fun _ _ _ _ _ => trivial
  idle := fun _ _ _ _ => ⟨trivial, trivial⟩
  start := fun _ _ _ _ _ _ => trivial
  call := by
    intro u held op g ha hg
    cases op with
    | enqueue p =>
      refine wp_bind (wp_mono (wp_enqueue hg) ?_)
      rintro ⟨res, t⟩ g' - (⟨hres, hg'⟩ | ⟨rfl, hg'⟩)
      · exact ⟨trivial, trivial, by rw [if_neg hres]; exact hg'⟩
      · exact ⟨trivial, trivial, hg'⟩
    | outqueue => exact wp_bind (wp_mono (wp_outqueue hg) fun _ _ _ hg' => ⟨trivial, trivial, hg'⟩)
    | peek => exact wp_bind (wp_mono (wp_peek hg) fun _ _ _ hg' => ⟨trivial, trivial, hg'⟩)
    | advance => exact wp_bind (wp_mono (wp_advance hg) fun _ _ _ hg' => ⟨trivial, trivial, hg'⟩)
    | clean t =>
      have hn : t ∈ held := of_decide_eq_true ha
      exact wp_bind (wp_mono (wp_cleanTimeout hn hg) fun _ _ _ hg' => ⟨trivial, trivial, hg'⟩)
    | pop t =>
      have hn : t ∈ held := of_decide_eq_true ha
      exact wp_bind (wp_mono (wp_popHead hn hg) fun _ _ _ hg' => ⟨trivial, trivial, hg'⟩)
    | handoff t =>
      have hn : t ∈ held := of_decide_eq_true ha
      exact wp_bind (wp_mono (wp_handoff hn hg) fun _ _ _ hg' => ⟨trivial, trivial, hg'⟩)

theorem holds_init : (spec cap).Holds (client cap reset modeOf) (QueueRun.init p₀)
    (fun _ => ⟨∅, .away⟩) where
  inv := by
    refine ⟨⟨Nat.le_refl _, Nat.zero_le _, Nat.zero_lt_succ _, ?_, ?_, ?_, ?_, fun _ _ => .inl rfl,
      rfl⟩, ?_, ?_, fun _ => trivial, ?_⟩
    · intro n hn
      exact absurd hn (Finset.notMem_empty n)
    · intro n hn
      exact absurd hn (Finset.notMem_empty n)
    · intro n hn
      exact absurd hn (Finset.notMem_empty n)
    · intro n _ hn
      exact absurd hn (Nat.not_lt_zero n)
    · intro u n hn
      exact absurd hn (Finset.notMem_empty n)
    · intro u v n hn
      exact absurd hn (Finset.notMem_empty n)
    · intro u v t t' ht
      cases ht
  moved := fun _ => ⟨⟨∅, .away⟩, trivial⟩
  idle := fun _ _ => ⟨.away, rfl, rfl⟩
  busy := by simp [QueueRun.init]

/-- In every run whose steps are all careful the head never passes a live ticket. -/
theorem not_passed_of_careful {x : QueueRun π}
    (h : Config.Reach (client cap reset modeOf) (Careful cap) (QueueRun.init p₀) x) :
    x.mem.passed = false := by
  obtain ⟨γ, hγ⟩ := proved.sound holds_init h
  exact hγ.inv.sane.passed

instance (ℓ : ℕ → Option QLabel) (u : ℕ) (e : QLabel) (s : Site π) : Decidable (Careful cap ℓ u e s) := by
  unfold Careful
  split <;> infer_instance

/-- The next step of thread `u` is careful. -/
def isCareful (cap : ℕ) (x : QueueRun π) (u : ℕ) : Bool :=
  (x.labels u).all fun e => Careful cap x.labels u e x.mem

theorem meets_of_isCareful (x : QueueRun π) (u : ℕ) (h : isCareful cap x u = true) :
    x.Meets (Careful cap) u := by
  intro e he
  rw [isCareful, he] at h
  exact of_decide_eq_true h

/-- Thread `u` queues as `n` and gives up, time and again. -/
def giveUps (u n : ℕ) : List (Config.Piece ℕ QLabel (Op Mode)) :=
  (List.range n).flatMap fun t => [.call u (.enqueue .x), .finish u, .call u (.clean t), .finish u]

/-- The queue is left behind by threads that gave up, and the head is moved up to the tail. -/
def oldLap (n : ℕ) : List (Config.Piece ℕ QLabel (Op Mode)) :=
  giveUps 0 n ++ [.call 1 .advance, .finish 1]

/-- A waiter on the second lap is notified and pops its entry. -/
theorem not_passed_of_careful_secondLap :
    ∃ x : QueueRun Mode, Config.Reach (client 16 .i id) (Careful 16) (QueueRun.init .i) x ∧
      x.mem.queue.head = 17 ∧ x.mem.passed = false := by
  have hrun : ∃ x : QueueRun Mode,
      Config.Reach (client 16 .i id) (Careful 16) (QueueRun.init .i) x ∧ x.mem.queue.head = 17 :=
    Config.reach_of_runAll meets_of_isCareful
      (oldLap 16 ++ [.call 2 (.enqueue .x), .finish 2, .call 1 .peek, .finish 1, .call 1 .outqueue,
        .finish 1, .call 2 (.pop 16), .finish 2])
      (by decide +kernel)
  obtain ⟨x, hx, hhead⟩ := hrun
  exact ⟨x, hx, hhead, not_passed_of_careful hx⟩

/-- Thread 2 has claimed ticket 16 and not yet written WRITING into slot 0, which still shows the
    TIMEOUT of ticket 0; thread 1 takes it for the head entry's and moves the head over ticket 16. -/
theorem advance_passes_fresh :
    ∃ x : QueueRun Mode, Config.Reachable (client 16 .i id) (QueueRun.init .i) x ∧
      x.mem.passed = true ∧ 16 ∈ x.mem.live ∧ x.mem.queue.head = 17 :=
  Config.reachable_of_runAll
    (oldLap 16 ++ [.call 2 (.enqueue .x), .upTo 2 (.slotLoad 16), .call 1 .advance, .finish 1])
    (by decide +kernel)

end Runs

end QueueSteps

end UbsAtomic
