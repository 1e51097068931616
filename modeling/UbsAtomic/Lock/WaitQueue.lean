import UbsAtomic.Conc.Sequential
import UbsAtomic.Lock.RingQueue

/-! The wait queue as a first-in first-out queue: its operations run one at a time.

        tickets      …  a   a+1  …        b-1 | b
        slots       [ live | dead | live … ]    (slot of n: n mod CAP)

    The tickets are counted without wrapping: `head` and `tail` are `a` and `b` modulo 2³². The
    entries of the window are those of `live`, WAITING or (only the first) NOTIFIED, and TIMEOUT for
    the rest; every slot outside the window is EMPTY or TIMEOUT. -/

namespace UbsAtomic

open Conc Conc.Prog

namespace WaitQueue

/-! ### Windows of wrapping counters -/

section Window

variable {cap a b m n : ℕ}

theorem u32Sub_window (hle : a ≤ b) (hroom : b ≤ a + cap) (hcap : cap < 4294967296) :
    u32Sub (u32 b) (u32 a) = b - a := by
  unfold u32Sub u32
  omega

theorem u32_ne_of_lt (hlt : a < b) (hroom : b ≤ a + cap) (hcap : cap < 4294967296) :
    u32 a ≠ u32 b := by
  unfold u32
  omega

theorem u32_succ (n : ℕ) : u32 (u32 n + 1) = u32 (n + 1) := by
  unfold u32
  omega

theorem mod_u32 (hcap : cap ∣ 4294967296) (n : ℕ) : u32 n % cap = n % cap :=
  Nat.mod_mod_of_dvd n hcap

/-- Two tickets of one window have different slots. -/
theorem eq_of_mod_eq (hm : a ≤ m) (hm' : m < a + cap) (hn : a ≤ n) (hn' : n < a + cap)
    (h : m % cap = n % cap) : m = n := by
  rcases Nat.le_total m n with hle | hle
  · have hdvd : (n - m) % cap = 0 := Nat.sub_mod_eq_zero_of_mod_eq h.symm
    rw [Nat.mod_eq_of_lt (by omega)] at hdvd
    omega
  · have hdvd : (m - n) % cap = 0 := Nat.sub_mod_eq_zero_of_mod_eq h
    rw [Nat.mod_eq_of_lt (by omega)] at hdvd
    omega

end Window

/-! ### What a queue in memory stands for -/

variable {π : Type}

/-- A queue of its own, with `cap` slots. -/
def queue (cap : ℕ) (reset : π) (modeOf : π → Mode) : QueueRef (RingQueue π) QLabel π :=
  ⟨cap, ⟨id, fun v _ => v⟩, reset, modeOf, id⟩

/-- `s` holds the tickets from `a` up to `b`, those in `live` still waited for. -/
structure Rep (cap : ℕ) (s : RingQueue π) (a b : ℕ) (live : Finset ℕ) : Prop where
  head : s.head = u32 a
  tail : s.tail = u32 b
  le : a ≤ b
  room : b ≤ a + cap
  window : ∀ n ∈ live, a ≤ n ∧ n < b
  waits : ∀ n ∈ live, (s.slots (n % cap)).seq = .waiting ∨ n = a ∧ (s.slots (n % cap)).seq = .notified
  dead : ∀ n, a ≤ n → n < b → n ∉ live → (s.slots (n % cap)).seq = .timeout
  outside : ∀ i, (∀ n, a ≤ n → n < b → n % cap ≠ i) →
    (s.slots i).seq = .empty ∨ (s.slots i).seq = .timeout
  count : s.count = live.card

/-- What a queue of `2 ^ k` slots with 32-bit counters has to do with its capacity. -/
structure Sized (cap : ℕ) : Prop where
  pos : 0 < cap
  lt : cap < 4294967296
  dvd : cap ∣ 4294967296

theorem sized_two_pow {k : ℕ} (hk : k < 32) : Sized (2 ^ k) := by
  have hle : 2 ^ k ∣ 2 ^ 32 := pow_dvd_pow 2 (Nat.le_of_lt hk)
  exact ⟨Nat.two_pow_pos k, Nat.pow_lt_pow_right (by decide) hk, hle⟩

theorem rep_init (cap : ℕ) (p : π) : Rep cap (.init p) 0 0 ∅ where
  head := rfl
  tail := rfl
  le := Nat.le_refl 0
  room := Nat.zero_le _
  window := by simp
  waits := by simp
  dead := by simp
  outside := fun _ _ => .inl rfl
  count := rfl

section Rep

variable {cap a b n : ℕ} {s s' : RingQueue π} {live : Finset ℕ}

theorem Rep.slot_ne (h : Rep cap s a b live) {m : ℕ} (hm : a ≤ m) (hm' : m < b) (hn : a ≤ n)
    (hn' : n < b) (hne : m ≠ n) : m % cap ≠ n % cap := by
  have hroom := h.room
  exact fun he => hne (eq_of_mod_eq hm (by omega) hn (by omega) he)

/-- The slot of a ticket of the window is that of no other; writing to it leaves the rest alone. -/
theorem Rep.write (h : Rep cap s a b live) {x : Slot π} {live' : Finset ℕ} (hn : a ≤ n) (hn' : n < b)
    (hs' : s'.slots = Function.update s.slots (n % cap) x) (hhead : s'.head = s.head)
    (htail : s'.tail = s.tail) (hcount : s'.count = live'.card)
    (hother : ∀ m, m ≠ n → (m ∈ live' ↔ m ∈ live))
    (hself : n ∈ live' ∧ (x.seq = .waiting ∨ n = a ∧ x.seq = .notified) ∨
      n ∉ live' ∧ x.seq = .timeout) : Rep cap s' a b live' := by
  have hslot : ∀ m, a ≤ m → m < b → m ≠ n → s'.slots (m % cap) = s.slots (m % cap) := by
    intro m hm hm' hne
    rw [hs', Function.update_of_ne (h.slot_ne hm hm' hn hn' hne)]
  have hown : s'.slots (n % cap) = x := by
    rw [hs', Function.update_self]
  refine ⟨hhead.trans h.head, htail.trans h.tail, h.le, h.room, fun m hm => ?_, fun m hm => ?_,
    fun m hm hm' hnot => ?_, fun i hi => ?_, hcount⟩
  · rcases eq_or_ne m n with rfl | hne
    · exact ⟨hn, hn'⟩
    · exact h.window m ((hother m hne).mp hm)
  · rcases eq_or_ne m n with rfl | hne
    · rw [hown]
      rcases hself with ⟨-, hx⟩ | ⟨hnot, -⟩
      · exact hx
      · exact absurd hm hnot
    · have hm := (hother m hne).mp hm
      have hw := h.window m hm
      rw [hslot m hw.1 hw.2 hne]
      exact h.waits m hm
  · rcases eq_or_ne m n with rfl | hne
    · rw [hown]
      rcases hself with ⟨hmem, -⟩ | ⟨-, hx⟩
      · exact absurd hmem hnot
      · exact hx
    · rw [hslot m hm hm' hne]
      exact h.dead m hm hm' fun hmem => hnot ((hother m hne).mpr hmem)
  · have hi' : i ≠ n % cap := fun hin => hi n hn hn' hin.symm
    rw [hs', Function.update_of_ne hi']
    exact h.outside i hi

/-- A dead entry at the head is stepped over. -/
theorem Rep.skip (h : Rep cap s a b live) (hlt : a < b) (hdead : a ∉ live) :
    Rep cap { s with head := u32 (a + 1) } (a + 1) b live := by
  have hroom := h.room
  refine ⟨rfl, h.tail, hlt, by omega, fun n hn => ?_, fun n hn => ?_, fun n hn hn' => ?_,
    fun i hi => ?_, h.count⟩
  · have hw := h.window n hn
    have hne : n ≠ a := fun hna => hdead (hna ▸ hn)
    omega
  · rcases h.waits n hn with hw | ⟨rfl, -⟩
    · exact .inl hw
    · exact absurd hn hdead
  · exact h.dead n (by omega) hn'
  · by_cases hia : a % cap = i
    · subst hia
      exact .inr (h.dead a (Nat.le_refl a) hlt hdead)
    · refine h.outside i fun n hn hn' => ?_
      rcases eq_or_ne n a with rfl | hne
      · exact hia
      · exact hi n (by omega) hn'

/-- The next ticket. -/
theorem Rep.push (h : Rep cap s a b live) (hfree : b < a + cap) {x : Slot π} (hx : x.seq = .waiting)
    (hs' : s'.slots = Function.update s.slots (b % cap) x) (hhead : s'.head = s.head)
    (htail : s'.tail = u32 (b + 1)) (hcount : s'.count = live.card + 1) :
    Rep cap s' a (b + 1) (insert b live) := by
  have hle := h.le
  have hnot : b ∉ live := fun hb => Nat.lt_irrefl b (h.window b hb).2
  have hslot : ∀ m, a ≤ m → m < b → s'.slots (m % cap) = s.slots (m % cap) := by
    intro m hm hm'
    have hne : m % cap ≠ b % cap := fun he =>
      Nat.ne_of_lt hm' (eq_of_mod_eq hm (by omega) hle hfree he)
    rw [hs', Function.update_of_ne hne]
  refine ⟨hhead.trans h.head, htail, by omega, by omega, fun m hm => ?_, fun m hm => ?_,
    fun m hm hm' hmem => ?_, fun i hi => ?_, ?_⟩
  · rcases Finset.mem_insert.mp hm with rfl | hm
    · exact ⟨hle, Nat.lt_succ_self _⟩
    · have hw := h.window m hm
      omega
  · rcases Finset.mem_insert.mp hm with rfl | hm
    · rw [hs', Function.update_self]
      exact .inl hx
    · have hw := h.window m hm
      rw [hslot m hw.1 hw.2]
      exact h.waits m hm
  · have hne : m ≠ b := fun hmb => hmem (hmb ▸ Finset.mem_insert_self _ _)
    rw [hslot m hm (by omega)]
    exact h.dead m hm (by omega) fun hm => hmem (Finset.mem_insert_of_mem hm)
  · have hib : i ≠ b % cap := fun hib => hi b hle (Nat.lt_succ_self _) hib.symm
    rw [hs', Function.update_of_ne hib]
    exact h.outside i fun n hn hn' => hi n hn (by omega)
  · rw [hcount, Finset.card_insert_of_notMem hnot]

/-- The first entry goes, and the head with it. -/
theorem Rep.pop (h : Rep cap s a b live) (hlt : a < b) {x : Slot π} (hx : x.seq = .empty)
    (hmem : a ∈ live) (hs' : s'.slots = Function.update s.slots (a % cap) x)
    (hhead : s'.head = u32 (a + 1)) (htail : s'.tail = s.tail) (hcount : s'.count = live.card - 1) :
    Rep cap s' (a + 1) b (live.erase a) := by
  have hroom := h.room
  have hslot : ∀ m, a + 1 ≤ m → m < b → s'.slots (m % cap) = s.slots (m % cap) := by
    intro m hm hm'
    rw [hs', Function.update_of_ne (h.slot_ne (by omega) hm' (Nat.le_refl a) hlt (by omega))]
  refine ⟨hhead, htail.trans h.tail, hlt, by omega, fun m hm => ?_, fun m hm => ?_,
    fun m hm hm' hnot => ?_, fun i hi => ?_, ?_⟩
  · obtain ⟨hne, hm⟩ := Finset.mem_erase.mp hm
    have hw := h.window m hm
    omega
  · obtain ⟨hne, hm⟩ := Finset.mem_erase.mp hm
    have hw := h.window m hm
    rw [hslot m (by omega) hw.2]
    rcases h.waits m hm with hw | ⟨hma, -⟩
    · exact .inl hw
    · exact absurd hma hne
  · rw [hslot m hm hm']
    exact h.dead m (by omega) hm' fun hm'' => hnot (Finset.mem_erase.mpr ⟨by omega, hm''⟩)
  · by_cases hia : i = a % cap
    · subst hia
      rw [hs', Function.update_self]
      exact .inl hx
    · rw [hs', Function.update_of_ne hia]
      refine h.outside i fun n hn hn' => ?_
      rcases eq_or_ne n a with rfl | hne
      · exact Ne.symm hia
      · exact hi n (by omega) hn'
  · rw [hcount, Finset.card_erase_of_mem hmem]

theorem Rep.index_head (h : Rep cap s a b live) (hcap : Sized cap) : s.head % cap = a % cap := by
  rw [h.head, mod_u32 hcap.dvd]

theorem Rep.lt_of_ne (h : Rep cap s a b live) (hne : s.head ≠ s.tail) : a < b := by
  rcases Nat.lt_or_eq_of_le h.le with hlt | rfl
  · exact hlt
  · exact absurd (h.head.trans h.tail.symm) hne

theorem Rep.notMem_of_timeout (h : Rep cap s a b live) (hs : (s.slots (n % cap)).seq = .timeout) :
    n ∉ live := by
  intro hn
  rcases h.waits n hn with hw | ⟨-, hw⟩ <;> simp [hw] at hs

/-- Nobody waits in a slot outside the window. -/
theorem Rep.mem_of_waiting (h : Rep cap s a b live)
    (hs : (s.slots (a % cap)).seq = .waiting) : a ∈ live := by
  rcases Nat.lt_or_eq_of_le h.le with hlt | rfl
  · by_contra hnot
    simp [h.dead a (Nat.le_refl a) hlt hnot] at hs
  · rcases h.outside (a % cap) (fun n hn hn' => absurd hn (Nat.not_le.mpr hn')) with he | he <;>
      simp [he] at hs

theorem Rep.card_le (h : Rep cap s a b live) : live.card ≤ b - a := by
  rw [← Nat.card_Ico]
  exact Finset.card_le_card fun n hn => Finset.mem_Ico.mpr (h.window n hn)

end Rep

/-! ### The operations one at a time -/

section Operations

variable {cap a b n : ℕ} {reset p : π} {modeOf : π → Mode} {s : RingQueue π} {live : Finset ℕ}

theorem ends_tryDecCount :
    (queue cap reset modeOf).tryDecCount.seq id
      (fun _ s' => s' = { s with count := s.count - 1 }) s := by
  refine wp_bind (seq_load ⟨fun _ => rfl, fun _ _ => rfl⟩ ?_)
  refine wp_loop (fun cur v => v = s ∧ cur = s.count) trivial ⟨rfl, rfl⟩ ?_
  rintro cur v ⟨rfl, rfl⟩
  split
  · rename_i h0
    refine ⟨trivial, ?_⟩
    have hc : v.count - 1 = v.count := by omega
    show v = { v with count := v.count - 1 }
    rw [hc]
  · refine wp_bind (seq_casWeak ⟨fun _ => rfl, fun _ _ => rfl⟩ (fun _ => ?_) ?_)
    · exact ⟨trivial, rfl⟩
    · exact ⟨trivial, rfl, rfl⟩

/-- The head, moved over dead entries. -/
def Skipped (cap : ℕ) (s : RingQueue π) (a b : ℕ) (live : Finset ℕ) (s' : RingQueue π) : Prop :=
  ∃ a' ≥ a, Rep cap s' a' b live ∧ s' = { s with head := u32 a' }

theorem Rep.skipped (h : Rep cap s a b live) : Skipped cap s a b live s :=
  ⟨a, Nat.le_refl a, h, by rw [← h.head]⟩

/-- The step both head-cleaning loops make. -/
theorem Skipped.next {s' : RingQueue π} (hcap : Sized cap) (h : Skipped cap s a b live s')
    (hne : s'.head ≠ s'.tail) (hdead : (s'.slots (s'.head % cap)).seq = .timeout) :
    Skipped cap s a b live { s' with head := u32 (s'.head + 1) } := by
  obtain ⟨a', ha, hr, hs'⟩ := h
  rw [hr.index_head hcap] at hdead
  have hskip := hr.skip (hr.lt_of_ne hne) (hr.notMem_of_timeout hdead)
  rw [hr.head, u32_succ]
  exact ⟨a' + 1, Nat.le_succ_of_le ha, hskip, by rw [hs']⟩

/-- The head in front of the first live entry, or at the end of the window. -/
def Cleaned (cap : ℕ) (s : RingQueue π) (a b : ℕ) (live : Finset ℕ) (s' : RingQueue π) : Prop :=
  ∃ n ≥ a, Rep cap s' n b live ∧ s' = { s with head := u32 n } ∧ (n = b ∨ n ∈ live)

/-- A head that is not dead is at a live entry or at the end. -/
theorem Skipped.cleaned {s' : RingQueue π} (hcap : Sized cap) (h : Skipped cap s a b live s')
    (hstop : s'.head = s'.tail ∨ (s'.slots (s'.head % cap)).seq ≠ .timeout) :
    Cleaned cap s a b live s' := by
  obtain ⟨n, hn, hr, hs'⟩ := h
  refine ⟨n, hn, hr, hs', ?_⟩
  have hle := hr.le
  rcases Nat.lt_or_eq_of_le hle with hlt | hb
  · right
    rcases hstop with hend | hslot
    · rw [hr.head, hr.tail] at hend
      exact absurd hend (u32_ne_of_lt hlt hr.room hcap.lt)
    · rw [hr.index_head hcap] at hslot
      by_contra hnot
      exact hslot (hr.dead n (Nat.le_refl n) hlt hnot)
  · exact .inl hb

theorem ends_advanceDeadHead (hcap : Sized cap) (h : Rep cap s a b live) :
    (queue cap reset modeOf).advanceDeadHead.seq id (fun _ s' => Cleaned cap s a b live s') s := by
  refine wp_loop (fun _ v => Skipped cap s a b live v) trivial h.skipped ?_
  rintro - v hv
  refine wp_bind (seq_load ⟨fun _ => rfl, fun _ _ => rfl⟩ ?_)
  refine wp_bind (seq_load ⟨fun _ => rfl, fun _ _ => rfl⟩ ?_)
  split
  · rename_i hend
    exact ⟨trivial, hv.cleaned hcap (.inl hend)⟩
  · rename_i hne
    refine wp_bind (seq_load ⟨fun _ => rfl, fun _ _ => rfl⟩ ?_)
    split
    · rename_i hdead
      exact wp_bind (seq_casWeak ⟨fun _ => rfl, fun _ _ => rfl⟩
        (fun _ => ⟨trivial, hv.next hcap hne hdead⟩) ⟨trivial, hv⟩)
    · rename_i hlive
      exact ⟨trivial, hv.cleaned hcap (.inr hlive)⟩

theorem ends_peekHeadModeClean (hcap : Sized cap) (h : Rep cap s a b live) :
    (queue cap reset modeOf).peekHeadModeClean.seq id (fun _ s' => Cleaned cap s a b live s') s := by
  refine wp_loop (fun _ v => Skipped cap s a b live v) trivial h.skipped ?_
  rintro - v hv
  refine wp_bind (seq_load ⟨fun _ => rfl, fun _ _ => rfl⟩ ?_)
  refine wp_bind (seq_load ⟨fun _ => rfl, fun _ _ => rfl⟩ ?_)
  split
  · rename_i hend
    exact ⟨trivial, hv.cleaned hcap (.inl hend)⟩
  · rename_i hne
    refine wp_bind (seq_load ⟨fun _ => rfl, fun _ _ => rfl⟩ ?_)
    have hstop : ∀ {m}, (v.slots (v.head % cap)).seq = m → m ≠ .timeout → Cleaned cap s a b live v :=
      fun he hm => hv.cleaned hcap (.inr (he ▸ hm))
    split
    · exact ⟨trivial, hv⟩
    · exact wp_bind (seq_load ⟨fun _ => rfl, fun _ _ => rfl⟩ ⟨trivial, hstop ‹_› (by simp)⟩)
    · exact ⟨trivial, hstop ‹_› (by simp)⟩
    · rename_i hdead
      exact wp_bind (seq_casWeak ⟨fun _ => rfl, fun _ _ => rfl⟩
        (fun _ => ⟨trivial, hv.next hcap hne hdead⟩) ⟨trivial, hv⟩)
    · exact ⟨trivial, hstop ‹_› (by simp)⟩

/-- An owner that gives up. -/
theorem ends_cleanTimeout (hs : (s.slots (n % cap)).seq = .waiting ∨
    (s.slots (n % cap)).seq = .notified) :
    ((queue cap reset modeOf).cleanTimeout n).seq id
      (fun _ s' => s' = { s with
        slots := Function.update s.slots (n % cap) ⟨.timeout, reset⟩, count := s.count - 1 }) s := by
  refine wp_bind (wp_bind (seq_load ⟨fun _ => rfl, fun _ _ => rfl⟩ ?_))
  refine wp_loop (fun seq v => v = s ∧ seq = (s.slots (n % cap)).seq) trivial ⟨rfl, rfl⟩ ?_
  rintro seq v ⟨rfl, rfl⟩
  rw [if_pos (.inr hs)]
  refine wp_bind (seq_casWeak ⟨fun _ => rfl, fun _ _ => rfl⟩ (fun _ => ?_) ?_)
  · refine wp_bind (seq_store ⟨fun _ => rfl, fun _ _ => rfl⟩ ?_)
    refine wp_bind (wp_mono ends_tryDecCount ?_)
    rintro _ s' - rfl
    refine ⟨trivial, trivial, ?_⟩
    simp [QueueRef.seq, QueueRef.payload, queue, Place.comp, QueueRef.index]
  · exact ⟨trivial, rfl, rfl⟩

theorem ends_popHead :
    ((queue cap reset modeOf).popHead n).seq id
      (fun _ s' => s' = { s with
        slots := Function.update s.slots (n % cap) ⟨.empty, reset⟩
        head := u32 (s.head + 1)
        count := s.count - 1 }) s := by
  refine wp_bind (seq_store ⟨fun _ => rfl, fun _ _ => rfl⟩ ?_)
  refine wp_bind (seq_store ⟨fun _ => rfl, fun _ _ => rfl⟩ ?_)
  refine wp_bind (seq_rmw ⟨fun _ => rfl, fun _ _ => rfl⟩ ?_)
  refine wp_mono ends_tryDecCount ?_
  rintro _ s' - rfl
  simp [QueueRef.seq, QueueRef.payload, QueueRef.head, queue, Place.comp, QueueRef.index]

/-- The queue with its head entry NOTIFIED. -/
def notifyHead (cap : ℕ) (s : RingQueue π) : RingQueue π :=
  { s with
    slots := Function.update s.slots (s.head % cap) ⟨.notified, (s.slots (s.head % cap)).payload⟩ }

theorem ends_outqueue :
    (queue cap reset modeOf).outqueue.seq id
      (fun _ s' => s' = s ∨
        (s.slots (s.head % cap)).seq = .waiting ∧ s' = notifyHead cap s) s := by
  refine wp_loop (fun _ v => v = s) trivial rfl ?_
  rintro sanity v rfl
  split
  · exact ⟨trivial, .inl rfl⟩
  · refine wp_bind (seq_load ⟨fun _ => rfl, fun _ _ => rfl⟩ ?_)
    refine wp_bind (seq_load ⟨fun _ => rfl, fun _ _ => rfl⟩ ?_)
    split
    · exact ⟨trivial, rfl⟩
    · split
      · exact wp_bind (seq_cas ⟨fun _ => rfl, fun _ _ => rfl⟩
          (fun hw => ⟨trivial, .inr ⟨hw, rfl⟩⟩) fun _ => ⟨trivial, rfl⟩)
      · exact ⟨trivial, .inl rfl⟩

theorem ends_trySelfHandoffIfHead :
    ((queue cap reset modeOf).trySelfHandoffIfHead n).seq id
      (fun _ s' => s' = s ∨
        (s.slots (s.head % cap)).seq = .waiting ∧ s' = notifyHead cap s) s := by
  refine wp_bind (seq_load ⟨fun _ => rfl, fun _ _ => rfl⟩ ?_)
  refine wp_bind (seq_load ⟨fun _ => rfl, fun _ _ => rfl⟩ ?_)
  split
  · exact ⟨trivial, .inl rfl⟩
  · split
    · exact ⟨trivial, .inl rfl⟩
    · rename_i hn
      obtain rfl : s.head = n := not_not.mp hn
      exact wp_bind (seq_cas ⟨fun _ => rfl, fun _ _ => rfl⟩
        (fun hw => ⟨trivial, .inr ⟨hw, rfl⟩⟩) fun _ => ⟨trivial, .inl rfl⟩)

theorem ends_enqueue (hcap : Sized cap) (h : Rep cap s a b live) :
    ((queue cap reset modeOf).enqueue p).seq id
      (fun r s' => r.1 = .error ∧ b = a + cap ∧ s' = s ∨
        r = (.success, u32 b) ∧ b < a + cap ∧ s' = { s with
          tail := u32 (b + 1)
          slots := Function.update s.slots (b % cap) ⟨.waiting, p⟩
          count := s.count + 1 }) s := by
  have hroom := h.room
  have hsub : u32Sub s.tail s.head = b - a := by
    rw [h.head, h.tail, u32Sub_window h.le h.room hcap.lt]
  have hticket : (queue cap reset modeOf).takeTicket.seq id
      (fun r s' => r = none ∧ b = a + cap ∧ s' = s ∨
        r = some (u32 b) ∧ b < a + cap ∧ s' = { s with tail := u32 (b + 1) }) s := by
    refine wp_loop (fun _ v => v = s) trivial rfl ?_
    rintro - v rfl
    refine wp_bind (seq_load ⟨fun _ => rfl, fun _ _ => rfl⟩ ?_)
    refine wp_bind (seq_load ⟨fun _ => rfl, fun _ _ => rfl⟩ ?_)
    have hcond : u32Sub v.tail v.head ≥ cap ↔ b = a + cap := by
      have hle := h.le
      omega
    split
    · rename_i hfull
      exact ⟨trivial, .inl ⟨rfl, hcond.mp hfull, rfl⟩⟩
    · rename_i hfree
      have hlt : b < a + cap := by
        have hne : b ≠ a + cap := fun he => hfree (hcond.mpr he)
        omega
      refine wp_bind (seq_casWeak ⟨fun _ => rfl, fun _ _ => rfl⟩ (fun _ => ?_) ⟨trivial, rfl⟩)
      refine ⟨trivial, .inr ⟨congrArg some h.tail, hlt, ?_⟩⟩
      show { v with tail := u32 (v.tail + 1) } = { v with tail := u32 (b + 1) }
      rw [h.tail, u32_succ]
  refine wp_bind (wp_mono hticket ?_)
  rintro r s' - (⟨rfl, hfull, rfl⟩ | ⟨rfl, hfree, rfl⟩)
  · exact ⟨trivial, .inl ⟨rfl, hfull, rfl⟩⟩
  · refine wp_bind (seq_load ⟨fun _ => rfl, fun _ _ => rfl⟩ ?_)
    refine wp_bind (seq_store ⟨fun _ => rfl, fun _ _ => rfl⟩ ?_)
    refine wp_bind (seq_store ⟨fun _ => rfl, fun _ _ => rfl⟩ ?_)
    refine wp_bind (seq_store ⟨fun _ => rfl, fun _ _ => rfl⟩ ?_)
    refine wp_bind (seq_rmw ⟨fun _ => rfl, fun _ _ => rfl⟩ ?_)
    refine ⟨trivial, .inr ⟨rfl, hfree, ?_⟩⟩
    have hcount : u32 (s.count + 1) = s.count + 1 := by
      have hle := h.card_le
      have hlt := hcap.lt
      rw [h.count]
      exact Nat.mod_eq_of_lt (by omega)
    simp [QueueRef.seq, QueueRef.payload, QueueRef.count, queue, Place.comp, QueueRef.index,
      mod_u32 hcap.dvd, hcount]
/-! ### They return -/

theorem enqueue_returns (reset p : π) (modeOf : π → Mode) :
    Total (· = 0) (fun _ _ => True) ((queue cap reset modeOf).enqueue p) s := by
  refine .bind (total_loop ?_)
  refine .bind (total_load rfl ?_)
  refine .bind (total_load rfl ?_)
  split
  · exact .ret (.ret trivial)
  · refine .bind (total_casWeak (fun _ => ?_) fun hne => absurd rfl hne)
    refine .ret (.bind (total_load rfl ?_))
    refine .bind (total_store rfl ?_)
    refine .bind (total_store rfl ?_)
    refine .bind (total_store rfl ?_)
    exact .bind (total_rmw rfl (.ret trivial))

theorem cleanTimeout_returns (reset : π) (modeOf : π → Mode) (n : ℕ) :
    Total (· = 0) (fun _ _ => True) ((queue cap reset modeOf).cleanTimeout n) s := by
  refine .bind (.bind (total_load rfl (total_loop ?_)))
  split
  · refine .bind (total_casWeak (fun _ => ?_) fun hne => absurd rfl hne)
    refine .bind (total_store rfl ?_)
    refine .bind (.bind (total_load rfl (total_loop ?_)))
    split
    · exact .ret (.ret (.ret trivial))
    · refine .bind (total_casWeak (fun _ => ?_) fun hne => absurd rfl hne)
      exact .ret (.ret (.ret trivial))
  · exact .ret (.ret trivial)

end Operations

end WaitQueue

end UbsAtomic
