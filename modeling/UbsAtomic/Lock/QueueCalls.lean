import UbsAtomic.Lock.WaitQueue

/-! The wait queue inside a larger memory, looked at by one thread.

    What the head-cleaning look at the queue finds, entry by entry from the head on:

        head                       j                       tail
        [ TIMEOUT | … | TIMEOUT | x | …                  ]
                                  └ WAITING: its mode; NOTIFIED, EMPTY or the tail: nothing

    The dead entries in front are stepped over, and nothing else in the memory changes. -/

namespace UbsAtomic

open Conc Conc.Prog

namespace QueueCalls

variable {σ ε π : Type}

/-! ### Entries by their distance from the head -/

/-- The counter `j` steps behind the head. -/
def ahead (r : RingQueue π) (j : ℕ) : ℕ := (fun h => u32 (h + 1))^[j] r.head

theorem ahead_succ (r : RingQueue π) (j : ℕ) : ahead r (j + 1) = u32 (ahead r j + 1) :=
  Function.iterate_succ_apply' _ j _

/-- The entry at counter `h` is in the window and TIMEOUT. -/
def Dead (cap : ℕ) (r : RingQueue π) (h : ℕ) : Prop :=
  h ≠ r.tail ∧ (r.slots (h % cap)).seq = .timeout

/-- What a look at the entry at counter `h` answers, if it answers at all. -/
def Answers (cap : ℕ) (modeOf : π → Mode) (r : RingQueue π) (h : ℕ) : Option Mode → Prop
  | some m => h ≠ r.tail ∧ (r.slots (h % cap)).seq = .waiting ∧ m = modeOf (r.slots (h % cap)).payload
  | none => h = r.tail ∨ (r.slots (h % cap)).seq = .notified ∨ (r.slots (h % cap)).seq = .empty

/-- The queue with its head `j` entries further. -/
def skip (r : RingQueue π) (j : ℕ) : RingQueue π := { r with head := ahead r j }

/-- The entries in front of entry `j` are dead, and a look at entry `j` answers `a`. -/
def Finds (cap : ℕ) (modeOf : π → Mode) (r : RingQueue π) (j : ℕ) (a : Option Mode) : Prop :=
  (∀ i < j, Dead cap r (ahead r i)) ∧ Answers cap modeOf r (ahead r j) a

section Finds

variable {cap h j : ℕ} {modeOf : π → Mode} {r : RingQueue π} {a : Option Mode}

/-- A dead entry gives no answer. -/
theorem Dead.not_answers (hd : Dead cap r h) : ¬ Answers cap modeOf r h a := by
  obtain ⟨hne, hs⟩ := hd
  cases a with
  | none =>
    rintro (he | he | he)
    · exact hne he
    · simp [hs] at he
    · simp [hs] at he
  | some m =>
    rintro ⟨-, he, -⟩
    simp [hs] at he

theorem Answers.unique {b : Option Mode} (ha : Answers cap modeOf r h a)
    (hb : Answers cap modeOf r h b) : a = b := by
  have hexcl : ∀ m, ¬ (Answers cap modeOf r h (some m) ∧ Answers cap modeOf r h none) := by
    rintro m ⟨⟨hne, hw, -⟩, he | he | he⟩
    · exact hne he
    · simp [hw] at he
    · simp [hw] at he
  cases a with
  | none =>
    cases b with
    | none => rfl
    | some m => exact absurd ⟨hb, ha⟩ (hexcl m)
  | some m =>
    cases b with
    | none => exact absurd ⟨ha, hb⟩ (hexcl m)
    | some m' => rw [ha.2.2, hb.2.2]

/-- There is at most one answer, and one place where it is found. -/
theorem Finds.unique {i : ℕ} {b : Option Mode} (ha : Finds cap modeOf r j a)
    (hb : Finds cap modeOf r i b) : j = i ∧ a = b := by
  rcases Nat.lt_trichotomy j i with hlt | rfl | hlt
  · exact absurd ha.2 (hb.1 j hlt).not_answers
  · exact ⟨rfl, ha.2.unique hb.2⟩
  · exact absurd hb.2 (ha.1 i hlt).not_answers

theorem Finds.skip (h : Finds cap modeOf r j a) : Finds cap modeOf (skip r j) 0 a :=
  ⟨fun i hi => absurd hi (Nat.not_lt_zero i), h.2⟩

end Finds

/-! ### The calls -/

section Calls

variable {q : QueueRef σ ε π} {s s' : σ} {j : ℕ} {a : Option Mode}

theorem head_get_skip (hq : q.ref.Lawful) (j : ℕ) :
    q.head.get (q.ref.set (skip (q.ref.get s) j) s) = ahead (q.ref.get s) j := by
  show (q.ref.get (q.ref.set _ s)).head = _
  rw [hq.get_set]
  rfl

theorem tail_get_skip (hq : q.ref.Lawful) (j : ℕ) :
    q.tail.get (q.ref.set (skip (q.ref.get s) j) s) = (q.ref.get s).tail := by
  show (q.ref.get (q.ref.set _ s)).tail = _
  rw [hq.get_set]
  rfl

theorem seq_get_skip (hq : q.ref.Lawful) (j i : ℕ) :
    (q.seq i).get (q.ref.set (skip (q.ref.get s) j) s) = ((q.ref.get s).slots i).seq := by
  show ((q.ref.get (q.ref.set _ s)).slots i).seq = _
  rw [hq.get_set]
  rfl

theorem payload_get_skip (hq : q.ref.Lawful) (j i : ℕ) :
    (q.payload i).get (q.ref.set (skip (q.ref.get s) j) s) = ((q.ref.get s).slots i).payload := by
  show ((q.ref.get (q.ref.set _ s)).slots i).payload = _
  rw [hq.get_set]
  rfl

theorem head_set_skip (hq : q.ref.Lawful) (j : ℕ) :
    q.head.set (u32 (ahead (q.ref.get s) j + 1)) (q.ref.set (skip (q.ref.get s) j) s) =
      q.ref.set (skip (q.ref.get s) (j + 1)) s := by
  show q.ref.set { q.ref.get (q.ref.set _ s) with head := _ } (q.ref.set _ s) = _
  rw [hq.get_set, hq.set_set, skip, skip, ahead_succ]

theorem set_skip_zero (hq : q.ref.Lawful) : q.ref.set (skip (q.ref.get s) 0) s = s :=
  hq.set_get s

/-- The look at the head steps over dead entries and answers at the first one that is not. -/
theorem ends_peekHeadModeClean (hq : q.ref.Lawful) :
    q.peekHeadModeClean.seq id (fun a s' => ∃ j, Finds q.cap q.modeOf (q.ref.get s) j a ∧
      s' = q.ref.set (skip (q.ref.get s) j) s) s := by
  refine wp_loop (fun _ v => ∃ j, (∀ i < j, Dead q.cap (q.ref.get s) (ahead (q.ref.get s) i)) ∧
    v = q.ref.set (skip (q.ref.get s) j) s) trivial ⟨0, by simp, (set_skip_zero hq).symm⟩ ?_
  rintro - _ ⟨j, hdead, rfl⟩
  refine wp_bind (seq_load ⟨fun _ => rfl, fun _ _ => rfl⟩ ?_)
  refine wp_bind (seq_load ⟨fun _ => rfl, fun _ _ => rfl⟩ ?_)
  rw [head_get_skip hq, tail_get_skip hq]
  split_ifs with ht
  · exact ⟨trivial, j, ⟨hdead, .inl ht⟩, rfl⟩
  refine wp_bind (seq_load ⟨fun _ => rfl, fun _ _ => rfl⟩ ?_)
  rw [seq_get_skip hq]
  cases hseq : ((q.ref.get s).slots (q.index (ahead (q.ref.get s) j))).seq with
  | writing => exact ⟨trivial, j, hdead, rfl⟩
  | waiting =>
    refine wp_bind (seq_load ⟨fun _ => rfl, fun _ _ => rfl⟩ ?_)
    rw [payload_get_skip hq]
    exact ⟨trivial, j, ⟨hdead, ht, hseq, rfl⟩, rfl⟩
  | notified => exact ⟨trivial, j, ⟨hdead, .inr (.inl hseq)⟩, rfl⟩
  | empty => exact ⟨trivial, j, ⟨hdead, .inr (.inr hseq)⟩, rfl⟩
  | timeout =>
    refine wp_bind (seq_casWeak ⟨fun _ => rfl, fun _ _ => rfl⟩ (fun _ => ?_) ?_)
    · rw [head_set_skip hq]
      refine ⟨trivial, j + 1, fun i hi => ?_, rfl⟩
      rcases Nat.lt_succ_iff_lt_or_eq.mp hi with hi | rfl
      · exact hdead i hi
      · exact ⟨ht, hseq⟩
    · exact ⟨trivial, j, hdead, rfl⟩

/-- With an answer at the head nothing is written. -/
theorem total_peek {C : ℕ → Prop} (hC : C 0) (h : Finds q.cap q.modeOf (q.ref.get s) 0 a) :
    Total C (fun a' s' => a' = a ∧ s' = s) q.peekHeadModeClean s := by
  have hans : Answers q.cap q.modeOf (q.ref.get s) (q.ref.get s).head a := h.2
  refine total_loop (.bind (total_load hC (.bind (total_load hC ?_))))
  split_ifs with ht
  · cases a with
    | none => exact .ret ⟨rfl, rfl⟩
    | some m => exact absurd ht hans.1
  refine .bind (total_load hC ?_)
  have hget : ∀ {x}, ((q.ref.get s).slots ((q.ref.get s).head % q.cap)).seq = x →
      (q.seq (q.index (q.head.get s))).get s = x := id
  cases a with
  | none =>
    rcases hans with hend | hseq | hseq
    · exact absurd hend ht
    · rw [hget hseq]
      exact .ret ⟨rfl, rfl⟩
    · rw [hget hseq]
      exact .ret ⟨rfl, rfl⟩
  | some m =>
    rw [hget hans.2.1]
    exact .bind (total_load hC (.ret ⟨congrArg some hans.2.2.symm, rfl⟩))

/-- It comes back if there is an answer. -/
theorem peekHeadModeClean_returns (hq : q.ref.Lawful)
    (h : Finds q.cap q.modeOf (q.ref.get s) j a) :
    Total (· = 0) (fun _ _ => True) q.peekHeadModeClean s := by
  suffices hfrom : ∀ d i, i + d = j → Total (· = 0) (fun _ _ => True) q.peekHeadModeClean
      (q.ref.set (skip (q.ref.get s) i) s) by
    have h0 := hfrom j 0 (Nat.zero_add j)
    rwa [set_skip_zero hq] at h0
  intro d
  induction d with
  | zero =>
    rintro i rfl
    have hskip := h.skip
    rw [Nat.add_zero, ← hq.get_set (QueueCalls.skip (q.ref.get s) i) s] at hskip
    exact (total_peek (C := (· = 0)) rfl hskip).mono fun _ _ _ => trivial
  | succ d ih =>
    intro i hi
    obtain ⟨hne, hseq⟩ := h.1 i (by omega)
    refine .iter (.bind (.bind (total_load rfl ?_)))
    refine .bind (total_load rfl ?_)
    rw [head_get_skip hq, tail_get_skip hq, if_neg hne]
    refine .bind (total_load rfl ?_)
    rw [seq_get_skip hq]
    simp only [QueueRef.index, hseq]
    refine .bind (total_casWeak (fun _ => ?_) fun hne => absurd (head_get_skip hq i) hne)
    rw [head_set_skip hq]
    exact .ret (ih (i + 1) (by omega))

/-- `outqueue` in front of a WAITING entry marks it. -/
theorem total_outqueue {C : ℕ → Prop} (hC : C 0) (hcap : 0 < q.cap)
    (hw : ((q.ref.get s).slots ((q.ref.get s).head % q.cap)).seq = .waiting) :
    Total C (fun i s' => i = some ((q.ref.get s).head % q.cap) ∧
      s' = q.ref.set (WaitQueue.notifyHead q.cap (q.ref.get s)) s) q.outqueue s := by
  refine total_loop ?_
  rw [if_neg (by omega)]
  refine .bind (total_load hC (.bind (total_load hC ?_)))
  have hget : (q.seq (q.index (q.head.get s))).get s = .waiting := hw
  rw [hget, if_neg (by decide), if_pos rfl]
  exact .bind (total_cas hC (fun _ => .ret ⟨rfl, rfl⟩) fun hne => absurd hget hne)

/-- `outqueue` in front of an entry that is over finds nobody. -/
theorem total_outqueue_none {C : ℕ → Prop} (hC : C 0)
    (hw : ((q.ref.get s).slots ((q.ref.get s).head % q.cap)).seq = .empty ∨
      ((q.ref.get s).slots ((q.ref.get s).head % q.cap)).seq = .timeout) :
    Total C (fun i s' => i = none ∧ s' = s) q.outqueue s := by
  refine total_loop ?_
  split
  · exact .ret ⟨rfl, rfl⟩
  refine .bind (total_load hC (.bind (total_load hC ?_)))
  have hget : (q.seq (q.index (q.head.get s))).get s = .empty ∨
      (q.seq (q.index (q.head.get s))).get s = .timeout := hw
  rcases hget with hget | hget
  · rw [hget, if_neg (by decide), if_neg (by decide)]
    exact .ret ⟨rfl, rfl⟩
  · rw [hget, if_neg (by decide), if_neg (by decide)]
    exact .ret ⟨rfl, rfl⟩

end Calls

/-! ### Windows of waiting entries -/

/-- The window of `r` are the tickets from `a` up to `b`: those of `live` are WAITING and counted, the
    others TIMEOUT. Nothing is said about the slots outside. -/
structure Waiting (cap : ℕ) (r : RingQueue π) (a b : ℕ) (live : Finset ℕ) : Prop where
  head : r.head = u32 a
  tail : r.tail = u32 b
  le : a ≤ b
  room : b ≤ a + cap
  window : ∀ n ∈ live, a ≤ n ∧ n < b
  waits : ∀ n ∈ live, (r.slots (n % cap)).seq = .waiting
  dead : ∀ n, a ≤ n → n < b → n ∉ live → (r.slots (n % cap)).seq = .timeout
  count : r.count = live.card

theorem ahead_eq {r : RingQueue π} {a : ℕ} (h : r.head = u32 a) (j : ℕ) : ahead r j = u32 (a + j) := by
  induction j with
  | zero => exact h
  | succ j ih => rw [ahead_succ, ih, WaitQueue.u32_succ, Nat.add_assoc]

/-- A queue without half-written entries always has an answer: at the latest the tail is one. -/
theorem exists_finds {cap : ℕ} {r : RingQueue π} (modeOf : π → Mode) (hhead : r.head < 4294967296)
    (htail : r.tail < 4294967296) (hwritten : ∀ i < cap, (r.slots i).seq ≠ .writing)
    (hcap : 0 < cap) : ∃ j a, Finds cap modeOf r j a := by
  classical
  have hend : ∃ j, ¬ Dead cap r (ahead r j) := by
    refine ⟨r.tail + 4294967296 - r.head, fun hd => hd.1 ?_⟩
    rw [ahead_eq (show r.head = u32 r.head from (Nat.mod_eq_of_lt hhead).symm)]
    unfold u32
    omega
  refine ⟨Nat.find hend, ?_⟩
  have hbefore : ∀ i < Nat.find hend, Dead cap r (ahead r i) := fun i hi =>
    not_not.mp (Nat.find_min hend hi)
  have hlast := Nat.find_spec hend
  generalize Nat.find hend = j at hbefore hlast
  by_cases ht : ahead r j = r.tail
  · exact ⟨none, hbefore, .inl ht⟩
  cases hseq : (r.slots (ahead r j % cap)).seq with
  | empty => exact ⟨none, hbefore, .inr (.inr hseq)⟩
  | writing => exact absurd hseq (hwritten _ (Nat.mod_lt _ hcap))
  | waiting => exact ⟨some _, hbefore, ht, hseq, rfl⟩
  | notified => exact ⟨none, hbefore, .inr (.inl hseq)⟩
  | timeout => exact absurd ⟨ht, hseq⟩ hlast
section Waiting

variable {cap a b n : ℕ} {modeOf : π → Mode} {r : RingQueue π} {live : Finset ℕ}

/-- The entries in front of a ticket are dead if none of them is live. -/
theorem Waiting.dead_before (h : Waiting cap r a b live) (hcap : WaitQueue.Sized cap) (hn : n ≤ b)
    (hlive : ∀ m ∈ live, n ≤ m) : ∀ i < n - a, Dead cap r (ahead r i) := by
  have hroom := h.room
  intro i hi
  rw [ahead_eq h.head]
  constructor
  · rw [h.tail]
    exact WaitQueue.u32_ne_of_lt (by omega) (show b ≤ a + i + cap by omega) hcap.lt
  · rw [WaitQueue.mod_u32 hcap.dvd]
    refine h.dead (a + i) (by omega) (by omega) fun hmem => ?_
    have hle := hlive _ hmem
    omega

/-- A look at the queue finds its first live entry. -/
theorem Waiting.finds (h : Waiting cap r a b live) (hcap : WaitQueue.Sized cap) (hn : n ∈ live)
    (hfirst : ∀ m ∈ live, n ≤ m) :
    Finds cap modeOf r (n - a) (some (modeOf (r.slots (n % cap)).payload)) := by
  have hroom := h.room
  have hw := h.window n hn
  refine ⟨h.dead_before hcap (by omega) hfirst, ?_⟩
  rw [ahead_eq h.head, Nat.add_sub_cancel' hw.1]
  refine ⟨?_, ?_, ?_⟩
  · rw [h.tail]
    exact WaitQueue.u32_ne_of_lt hw.2 (show b ≤ n + cap by omega) hcap.lt
  · rw [WaitQueue.mod_u32 hcap.dvd]
    exact h.waits n hn
  · rw [WaitQueue.mod_u32 hcap.dvd]

/-- With no live entry it finds nothing. -/
theorem Waiting.finds_none (h : Waiting cap r a b live) (hcap : WaitQueue.Sized cap)
    (hnone : live = ∅) : Finds cap modeOf r (b - a) none := by
  refine ⟨h.dead_before hcap (Nat.le_refl b) (by simp [hnone]), .inl ?_⟩
  rw [ahead_eq h.head, Nat.add_sub_cancel' h.le, h.tail]

end Waiting

end QueueCalls

end UbsAtomic
