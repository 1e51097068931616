import UbsAtomic.Lock.Footprint
import UbsAtomic.Lock.QueueCalls

/-! Waking up whoever comes next.

        head ─▶ [ TIMEOUT … TIMEOUT | first | … ]      the look at the head steps over the dead
                                    │ first ║ … ]      the first entry is marked NOTIFIED
                                    │ first ║          the next look stands at a NOTIFIED entry

    The marked entry stays at the head until its thread takes the lock and pops it, so the chains of
    `wake_after_unlock_exclusive` end after one entry. Only a failed message to another node moves
    the head on. -/

namespace UbsAtomic

open Conc Conc.Prog

namespace WakeChain

section Parts

variable {π β : Type} {q : QueueRef Mem Label π} {notify : ℕ → Call β} {s s' : Mem}
  {t : List (OwnStep Mem Label)}

/-! ### The wake-up in parts -/

/-- In front of a WAITING entry, `dequeue_and_notify_one` marks it and notifies its thread. -/
theorem path_dequeueWith (hcap : 0 < q.cap)
    (hw : ((q.ref.get s).slots ((q.ref.get s).head % q.cap)).seq = .waiting)
    (hp : Path (dequeueWith q notify) s t () s') : ∃ t₁ t₂ r,
      t = t₁ ++ t₂ ∧ Traced q.outqueue t₁ (some ((q.ref.get s).head % q.cap)) ∧
      Path (notify ((q.ref.get s).head % q.cap))
        (q.ref.set (WaitQueue.notifyHead q.cap (q.ref.get s)) s) t₂ r s' := by
  have hround : ∀ {r t s'}, Path (dequeueRound q notify (ubMaxCapacity * 2)) s t r s' →
      r = .inr () ∧ ∃ t₁ t₂ r, t = t₁ ++ t₂ ∧
        Traced q.outqueue t₁ (some ((q.ref.get s).head % q.cap)) ∧
        Path (notify ((q.ref.get s).head % q.cap))
          (q.ref.set (WaitQueue.notifyHead q.cap (q.ref.get s)) s) t₂ r s' := by
    intro r t s' h
    rw [dequeueRound, if_neg (by decide)] at h
    obtain ⟨t₁, t₂, i, s₁, rfl, hout, h⟩ := h.of_bind
    obtain ⟨rfl, hs₁⟩ := (QueueCalls.total_outqueue trivial hcap hw).sound hout.run
    obtain rfl : s₁ = _ := hs₁
    obtain ⟨t₂, t₃, r', s₂, rfl, hn, h⟩ := Path.of_bind h
    obtain ⟨rfl, rfl, rfl⟩ := h.of_ret
    exact ⟨rfl, t₁, t₂, r', by rw [List.append_nil], hout.traced, hn⟩
  rcases Path.of_loop hp with h | ⟨j, t₁, t₂, s₁, -, h, -⟩
  · exact (hround h).2
  · cases (hround h).1

/-- Looking at a head that is not WAITING ends the chain. -/
theorem path_wakeRest_stop (hq : q.ref.Lawful) {dequeue : Call Unit} {m : Mode}
    (hstop : QueueCalls.Finds q.cap q.modeOf (q.ref.get s) 0 none)
    (hp : Path (wakeRest q.peekHeadModeClean dequeue m) s t () s') :
    s' = s ∧ (t = [] ∨ Traced q.peekHeadModeClean t none) := by
  have hpeek : ∀ {a t s'}, Path q.peekHeadModeClean s t a s' → a = none ∧ s' = s := by
    intro a t s' h
    obtain ⟨j, hfind, hs'⟩ := h.run.sound (QueueCalls.ends_peekHeadModeClean hq)
    obtain ⟨rfl, rfl⟩ := hfind.unique hstop
    exact ⟨rfl, hs'.trans (QueueCalls.set_skip_zero hq)⟩
  -- the round of either chain is the look and nothing else
  have hround : ∀ {ι : Type} {k : Option Mode → Call (ι ⊕ Unit)} {r t s'},
      k none = Prog.ret (.inr ()) → Path (q.peekHeadModeClean.bind k) s t r s' →
      r = .inr () ∧ s' = s ∧ Traced q.peekHeadModeClean t none := by
    intro ι k r t s' hk h
    obtain ⟨t₁, t₂, a, s₁, rfl, hlook, hrest⟩ := h.of_bind
    obtain ⟨rfl, rfl⟩ := hpeek hlook
    rw [hk] at hrest
    obtain ⟨rfl, rfl, rfl⟩ := hrest.of_ret
    exact ⟨rfl, rfl, by rw [List.append_nil]; exact hlook.traced⟩
  have hloop : ∀ {ι : Type} {k : ι → Option Mode → Call (ι ⊕ Unit)} {i : ι},
      (∀ i, k i none = Prog.ret (.inr ())) →
      Path (loop (fun i => q.peekHeadModeClean.bind (k i)) i) s t () s' →
      s' = s ∧ Traced q.peekHeadModeClean t none := by
    intro ι k i hk h
    rcases Path.of_loop h with h | ⟨j, t₁, t₂, s₁, -, h, -⟩
    · exact (hround (hk i) h).2
    · cases (hround (hk i) h).1
  cases m with
  | s =>
    obtain ⟨hs, ht⟩ := hloop (fun _ => rfl) hp
    exact ⟨hs, .inr ht⟩
  | sx =>
    obtain ⟨hs, ht⟩ := hloop (fun _ => rfl) hp
    exact ⟨hs, .inr ht⟩
  | x =>
    obtain ⟨rfl, -, rfl⟩ := hp.of_ret
    exact ⟨rfl, .inl rfl⟩
  | i =>
    obtain ⟨rfl, -, rfl⟩ := hp.of_ret
    exact ⟨rfl, .inl rfl⟩

/-- The queue whose first live ticket `n` has been marked. -/
def marked (cap : ℕ) (r : RingQueue π) (n : ℕ) : RingQueue π :=
  { r with
    head := u32 n
    slots := Function.update r.slots (n % cap) ⟨.notified, (r.slots (n % cap)).payload⟩ }

theorem marked_slot (cap : ℕ) (r : RingQueue π) (n : ℕ) :
    (marked cap r n).slots (n % cap) = ⟨.notified, (r.slots (n % cap)).payload⟩ :=
  Function.update_self ..

theorem marked_slot_of_ne {cap i n : ℕ} {r : RingQueue π} (h : i ≠ n % cap) :
    (marked cap r n).slots i = r.slots i :=
  Function.update_of_ne h ..

/-- The labels of a queue's own steps. -/
def OfQueue (q : QueueRef Mem Label π) (t : List (OwnStep Mem Label)) : Prop :=
  ∀ m ∈ t, ∃ e, m.label = q.lab e

theorem silent_label (q : QueueRef Mem Label π) :
    q.Silent (fun _ _ => True) fun e => ∃ e', e = q.lab e' :=
  ⟨fun _ => trivial, fun _ _ => trivial, fun e => ⟨e, rfl⟩⟩

theorem ofQueue_peek {a : Option Mode} (h : Traced q.peekHeadModeClean t a) : OfQueue q t :=
  (silent_label q).peekHeadModeClean.labels h

theorem ofQueue_append {t' : List (OwnStep Mem Label)} (h : OfQueue q t) (h' : OfQueue q t') :
    OfQueue q (t ++ t') := by
  intro m hm
  rcases List.mem_append.mp hm with hm | hm
  · exact h m hm
  · exact h' m hm

variable {a b n : ℕ} {live : Finset ℕ}

/-- With nobody waiting, or an entry that waits for nothing in front, only the head moves. -/
theorem path_wake_none (hq : q.ref.Lawful)
    (hfind : ∃ j x, QueueCalls.Finds q.cap q.modeOf (q.ref.get s) j x ∧ (x = none ∨ x = some .i))
    (hp : Path (wakeRule q.peekHeadModeClean (dequeueWith q notify)) s t () s') :
    OfQueue q t ∧ ∃ j, s' = q.ref.set (QueueCalls.skip (q.ref.get s) j) s := by
  rw [wakeRule] at hp
  obtain ⟨t₁, t₂, x, s₁, rfl, hlook, hrest⟩ := hp.of_bind
  obtain ⟨j, hx, hs₁⟩ := hlook.run.sound (QueueCalls.ends_peekHeadModeClean hq)
  obtain ⟨j', x', hx', hnone⟩ := hfind
  obtain ⟨rfl, rfl⟩ := hx.unique hx'
  have hret : wakeNext q.peekHeadModeClean (dequeueWith q notify) x = Prog.ret () := by
    rcases hnone with rfl | rfl <;> rfl
  rw [hret] at hrest
  obtain ⟨rfl, -, rfl⟩ := hrest.of_ret
  rw [List.append_nil]
  exact ⟨ofQueue_peek hlook.traced, j, hs₁⟩

/-- The queue in front of its first live entry. -/
theorem get_front (hq : q.ref.Lawful) (hw : QueueCalls.Waiting q.cap (q.ref.get s) a b live)
    (hn : n ∈ live) : q.ref.get (q.ref.set (QueueCalls.skip (q.ref.get s) (n - a)) s) =
      { q.ref.get s with head := u32 n } := by
  rw [hq.get_set, QueueCalls.skip, QueueCalls.ahead_eq hw.head,
    Nat.add_sub_cancel' (hw.window n hn).1]

theorem waiting_front (hq : q.ref.Lawful) (hcap : WaitQueue.Sized q.cap)
    (hw : QueueCalls.Waiting q.cap (q.ref.get s) a b live) (hn : n ∈ live) :
    ((q.ref.get (q.ref.set (QueueCalls.skip (q.ref.get s) (n - a)) s)).slots
      ((q.ref.get (q.ref.set (QueueCalls.skip (q.ref.get s) (n - a)) s)).head % q.cap)).seq =
      .waiting := by
  rw [get_front hq hw hn, WaitQueue.mod_u32 hcap.dvd n]
  exact hw.waits n hn

/-- Otherwise the first entry is marked and notified, and the chain goes on from there. -/
theorem path_wake_first (hq : q.ref.Lawful) (hcap : WaitQueue.Sized q.cap)
    (hw : QueueCalls.Waiting q.cap (q.ref.get s) a b live) (hn : n ∈ live)
    (hfirst : ∀ m ∈ live, n ≤ m)
    (hmode : q.modeOf ((q.ref.get s).slots (n % q.cap)).payload ≠ .i)
    (hp : Path (wakeRule q.peekHeadModeClean (dequeueWith q notify)) s t () s') :
    ∃ t₁ t₂ t₃ r s₃, t = t₁ ++ (t₂ ++ t₃) ∧ OfQueue q t₁ ∧
      Path (notify (n % q.cap)) (q.ref.set (marked q.cap (q.ref.get s) n) s) t₂ r s₃ ∧
      Path (wakeRest q.peekHeadModeClean (dequeueWith q notify)
        (q.modeOf ((q.ref.get s).slots (n % q.cap)).payload)) s₃ t₃ () s' := by
  rw [wakeRule] at hp
  obtain ⟨t₁, t₂, x, s₁, rfl, hlook, hrest⟩ := hp.of_bind
  obtain ⟨j, hx, hs₁⟩ := hlook.run.sound (QueueCalls.ends_peekHeadModeClean hq)
  obtain ⟨rfl, rfl⟩ := hx.unique (hw.finds hcap hn hfirst)
  obtain rfl : s₁ = _ := hs₁
  have hnext : wakeNext q.peekHeadModeClean (dequeueWith q notify)
      (some (q.modeOf ((q.ref.get s).slots (n % q.cap)).payload)) =
      (dequeueWith q notify).bind fun _ => wakeRest q.peekHeadModeClean (dequeueWith q notify)
        (q.modeOf ((q.ref.get s).slots (n % q.cap)).payload) := by
    revert hmode
    cases q.modeOf ((q.ref.get s).slots (n % q.cap)).payload with
    | i => exact fun h => absurd rfl h
    | s => exact fun _ => rfl
    | x => exact fun _ => rfl
    | sx => exact fun _ => rfl
  rw [hnext] at hrest
  obtain ⟨t₂, t₃, ⟨⟩, s₃, rfl, hdeq, hchain⟩ := hrest.of_bind
  have hwait := waiting_front hq hcap hw hn
  obtain ⟨t₄, t₅, r, rfl, hout, hnotify⟩ := path_dequeueWith hcap.pos hwait hdeq
  rw [get_front hq hw hn, hq.set_set] at hnotify
  simp only [WaitQueue.notifyHead, WaitQueue.mod_u32 hcap.dvd n] at hnotify
  refine ⟨t₁ ++ t₄, t₅, t₃, r, s₃, by simp, ?_, hnotify, hchain⟩
  exact ofQueue_append (ofQueue_peek hlook.traced) ((silent_label q).outqueue.labels hout)

/-- A marked head has nobody to wake. -/
theorem finds_marked {r : RingQueue π} {cap : ℕ} (hcap : WaitQueue.Sized cap) (modeOf : π → Mode) :
    QueueCalls.Finds cap modeOf (marked cap r n) 0 none := by
  refine ⟨fun i hi => absurd hi (Nat.not_lt_zero i), .inr (.inl ?_)⟩
  have hslot : u32 n % cap = n % cap := WaitQueue.mod_u32 hcap.dvd n
  simp [QueueCalls.ahead, marked, hslot]

theorem total_dequeueWith (hcap : 0 < q.cap)
    (hw : ((q.ref.get s).slots ((q.ref.get s).head % q.cap)).seq = .waiting) (hq : q.ref.Lawful)
    (hnotify : ∀ s i, Total (· = 0) (fun _ s' => q.ref.get s' = q.ref.get s) (notify i) s) :
    Total (· = 0) (fun _ s' => q.ref.get s' = WaitQueue.notifyHead q.cap (q.ref.get s))
      (dequeueWith q notify) s := by
  refine total_loop ?_
  rw [dequeueRound, if_neg (by decide)]
  refine .bind ((QueueCalls.total_outqueue (C := (· = 0)) rfl hcap hw).mono ?_)
  rintro i s₁ ⟨rfl, rfl⟩
  refine .bind ((hnotify _ _).mono fun _ s₂ hs₂ => .ret ?_)
  exact hs₂.trans (hq.get_set _ _)

/-- The queue after a wake-up whose first look answered `x` at entry `j`. -/
def woken (cap : ℕ) (r : RingQueue π) (j : ℕ) : Option Mode → RingQueue π
  | none | some .i => QueueCalls.skip r j
  | some _ => WaitQueue.notifyHead cap (QueueCalls.skip r j)

/-- A NOTIFIED head has nobody to wake. -/
theorem finds_notifyHead {cap : ℕ} {r : RingQueue π} (modeOf : π → Mode) :
    QueueCalls.Finds cap modeOf (WaitQueue.notifyHead cap r) 0 none := by
  refine ⟨fun i hi => absurd hi (Nat.not_lt_zero i), .inr (.inl ?_)⟩
  simp [QueueCalls.ahead, WaitQueue.notifyHead]

theorem total_wakeRest_stop {dequeue : Call Unit} {m : Mode}
    (hstop : QueueCalls.Finds q.cap q.modeOf (q.ref.get s) 0 none) :
    Total (· = 0) (fun _ s' => s' = s) (wakeRest q.peekHeadModeClean dequeue m) s := by
  have hpeek := QueueCalls.total_peek (C := (· = 0)) rfl hstop
  cases m with
  | s =>
    refine total_loop (.bind (hpeek.mono ?_))
    rintro a s' ⟨rfl, rfl⟩
    exact .ret rfl
  | sx =>
    refine total_loop (.bind (hpeek.mono ?_))
    rintro a s' ⟨rfl, rfl⟩
    exact .ret rfl
  | x => exact .ret rfl
  | i => exact .ret rfl

/-- The wake-up returns if the first look does. -/
theorem total_wakeRule (hq : q.ref.Lawful) (hcap : 0 < q.cap) {j : ℕ} {x : Option Mode}
    (hfind : QueueCalls.Finds q.cap q.modeOf (q.ref.get s) j x)
    (hnotify : ∀ s i, Total (· = 0) (fun _ s' => q.ref.get s' = q.ref.get s) (notify i) s) :
    Total (· = 0) (fun _ s' => q.ref.get s' = woken q.cap (q.ref.get s) j x)
      (wakeRule q.peekHeadModeClean (dequeueWith q notify)) s := by
  rw [wakeRule]
  refine .bind ((QueueCalls.peekHeadModeClean_returns hq hfind).of_run fun x' s₁ hr => ?_)
  obtain ⟨j', hx, hs₁⟩ := hr.sound (QueueCalls.ends_peekHeadModeClean hq)
  obtain ⟨rfl, rfl⟩ := hx.unique hfind
  obtain rfl : s₁ = _ := hs₁
  have hget := hq.get_set (QueueCalls.skip (q.ref.get s) j') s
  cases x' with
  | none => exact .ret hget
  | some m =>
    have hwait : ((q.ref.get (q.ref.set (QueueCalls.skip (q.ref.get s) j') s)).slots
        ((q.ref.get (q.ref.set (QueueCalls.skip (q.ref.get s) j') s)).head % q.cap)).seq =
        .waiting := by
      rw [hget]
      exact hfind.2.2.1
    have hnext : Total (· = 0) (fun _ s' => q.ref.get s' =
        WaitQueue.notifyHead q.cap (QueueCalls.skip (q.ref.get s) j'))
        ((dequeueWith q notify).bind fun _ => wakeRest q.peekHeadModeClean (dequeueWith q notify) m)
        (q.ref.set (QueueCalls.skip (q.ref.get s) j') s) := by
      refine .bind ((total_dequeueWith hcap hwait hq hnotify).mono fun _ s₂ hs₂ => ?_)
      rw [hget] at hs₂
      have hstop : QueueCalls.Finds q.cap q.modeOf (q.ref.get s₂) 0 none := by
        rw [hs₂]
        exact finds_notifyHead q.modeOf
      exact (total_wakeRest_stop hstop).mono fun _ s' hs' => hs' ▸ hs₂
    cases m with
    | i => exact .ret hget
    | s => exact hnext
    | x => exact hnext
    | sx => exact hnext

/-- The wake-up returns, whoever waits. -/
theorem wake_returns (hq : q.ref.Lawful) (hcap : WaitQueue.Sized q.cap)
    (hw : QueueCalls.Waiting q.cap (q.ref.get s) a b live)
    (hnotify : ∀ s i, Total (· = 0) (fun _ s' => q.ref.get s' = q.ref.get s) (notify i) s) :
    Total (· = 0) (fun _ _ => True) (wakeRule q.peekHeadModeClean (dequeueWith q notify)) s := by
  rcases live.eq_empty_or_nonempty with hnone | hne
  · exact (total_wakeRule hq hcap.pos (hw.finds_none hcap hnone) hnotify).mono fun _ _ _ => trivial
  · have hfind : QueueCalls.Finds _ q.modeOf _ _ _ :=
      hw.finds hcap (live.min'_mem hne) fun m hm => live.min'_le m hm
    exact (total_wakeRule hq hcap.pos hfind hnotify).mono fun _ _ _ => trivial
end Parts

/-! ### The documented rule -/

/-- After a first S: every S and one SX, up to the next X. -/
def sBatch (meetSx : Bool) : List Mode → ℕ
  | .s :: ms => sBatch meetSx ms + 1
  | .sx :: ms => if meetSx then 0 else sBatch true ms + 1
  | _ => 0

/-- How many of the waiting entries, given by their modes, are to be woken together. -/
def batch : List Mode → ℕ
  | .x :: _ => 1
  | .s :: ms => sBatch false ms + 1
  | .sx :: ms => (ms.takeWhile (· = .s)).length + 1
  | _ => 0

/-- The tickets that the rule wakes. -/
def toNotify {π : Type} (cap : ℕ) (modeOf : π → Mode) (r : RingQueue π) (live : Finset ℕ) : List ℕ :=
  (live.sort (· ≤ ·)).take (batch ((live.sort (· ≤ ·)).map fun k => modeOf (r.slots (k % cap)).payload))

/-- Whom a step notifies. -/
def notified (m : OwnStep Mem Label) : Option Location :=
  match m.label with
  | .notify l => some l
  | _ => none

/-- The threads of the rule were notified once each and in order, their entries are marked, and no
    other entry was touched. -/
structure FollowsRule (n : NodeId) (live : Finset ℕ) (s : Mem) (t : List (OwnStep Mem Label))
    (s' : Mem) : Prop where
  threads : t.filterMap notified =
    (toNotify ubMaxCapacity LocalWaiter.mode (s.ll n).queue live).map fun k =>
      ⟨((s.ll n).queue.slots (k % ubMaxCapacity)).payload.tid, n⟩
  marks : ∀ k ∈ toNotify ubMaxCapacity LocalWaiter.mode (s.ll n).queue live,
    (s'.ll n).queue.slots (k % ubMaxCapacity) =
      ⟨.notified, ((s.ll n).queue.slots (k % ubMaxCapacity)).payload⟩
  others : ∀ i, (∀ k ∈ toNotify ubMaxCapacity LocalWaiter.mode (s.ll n).queue live,
    k % ubMaxCapacity ≠ i) → (s'.ll n).queue.slots i = (s.ll n).queue.slots i

section Local

variable {n : NodeId} {s s' : Mem} {t : List (OwnStep Mem Label)}

theorem lawful_localQueue (n : NodeId) : (localQueue n).ref.Lawful where
  get_set v s := by
    simp [localQueue, Local.queue, Local.field]
  set_set v w s := by
    simp [localQueue, Local.queue, Local.field]
  set_get s := by
    simp [localQueue, Local.queue, Local.field]

theorem sized_local : WaitQueue.Sized ubMaxCapacity := WaitQueue.sized_two_pow (k := 8) (by decide)

/-- The steps of the queue notify nobody. -/
theorem notified_ofQueue (h : OfQueue (localQueue n) t) : t.filterMap notified = [] := by
  rw [List.filterMap_eq_nil_iff]
  intro m hm
  obtain ⟨e, he⟩ := h m hm
  rw [notified, he]
  rfl

/-- `notify_one` notifies the thread of the entry, and leaves the queue alone. -/
theorem path_notifyOne {i : ℕ} {r : Bool} (hp : Path (LocalLock.notifyOne n i) s t r s') :
    t.filterMap notified = [⟨((s.ll n).queue.slots i).payload.tid, n⟩] ∧ s'.ll = s.ll := by
  obtain ⟨ht, hl⟩ := hp
  cases ht with
  | act hf ht =>
    cases hf
    cases ht with
    | act hf ht =>
      cases hf
      cases ht
      obtain ⟨rfl, hbetween, rfl⟩ := hl
      have hll := congrArg Mem.ll hbetween
      exact ⟨rfl, hll⟩

/-- The rule begins with the first live ticket. -/
theorem toNotify_first {π : Type} {cap k : ℕ} {modeOf : π → Mode} {r : RingQueue π} {live : Finset ℕ}
    (hk : k ∈ live) (hfirst : ∀ m ∈ live, k ≤ m) (hmode : modeOf (r.slots (k % cap)).payload ≠ .i) :
    ∃ ks, toNotify cap modeOf r live = k :: ks := by
  have hsort : live.sort (· ≤ ·) = k :: (live.erase k).sort (· ≤ ·) := by
    conv_lhs => rw [← Finset.insert_erase hk]
    exact Finset.sort_insert _ (fun m hm => hfirst m (Finset.mem_of_mem_erase hm))
      (Finset.notMem_erase k live)
  rw [toNotify, hsort, List.map_cons]
  revert hmode
  cases modeOf (r.slots (k % cap)).payload with
  | i => exact fun h => absurd rfl h
  | s => exact fun _ => ⟨_, rfl⟩
  | x => exact fun _ => ⟨_, rfl⟩
  | sx => exact fun _ => ⟨_, rfl⟩

theorem toNotify_none {π : Type} {cap k : ℕ} {modeOf : π → Mode} {r : RingQueue π} {live : Finset ℕ}
    (hk : k ∈ live) (hfirst : ∀ m ∈ live, k ≤ m) (hmode : modeOf (r.slots (k % cap)).payload = .i) :
    toNotify cap modeOf r live = [] := by
  have hsort : live.sort (· ≤ ·) = k :: (live.erase k).sort (· ≤ ·) := by
    conv_lhs => rw [← Finset.insert_erase hk]
    exact Finset.sort_insert _ (fun m hm => hfirst m (Finset.mem_of_mem_erase hm))
      (Finset.notMem_erase k live)
  rw [toNotify, hsort, List.map_cons, hmode]
  rfl

/-- Nobody is woken and nobody should be. -/
theorem followsRule_of_none {live : Finset ℕ} (ht : OfQueue (localQueue n) t)
    (hs' : ∃ j, s' = (localQueue n).ref.set (QueueCalls.skip (s.ll n).queue j) s)
    (hnone : toNotify ubMaxCapacity LocalWaiter.mode (s.ll n).queue live = []) :
    FollowsRule n live s t s' := by
  obtain ⟨j, rfl⟩ := hs'
  refine ⟨?_, ?_, ?_⟩
  · rw [hnone, notified_ofQueue ht]
    rfl
  · simp [hnone]
  · intro i _
    simp [localQueue, Local.queue, Local.field, QueueCalls.skip]

/-- The call returns, and it follows the rule exactly if the rule wakes at most one thread. -/
theorem followsRule_iff {a b : ℕ} {live : Finset ℕ}
    (hw : QueueCalls.Waiting ubMaxCapacity (s.ll n).queue a b live) :
    Total (· = 0) (fun _ _ => True) (LocalLock.wakeAfterUnlockExclusive n) s ∧
    ∀ t s', Path (LocalLock.wakeAfterUnlockExclusive n) s t () s' →
      (FollowsRule n live s t s' ↔
        (toNotify ubMaxCapacity LocalWaiter.mode (s.ll n).queue live).length ≤ 1) := by
  have hq := lawful_localQueue n
  refine ⟨wake_returns hq sized_local hw ?_, ?_⟩
  · intro s i
    refine .bind (total_load rfl (total_rmw rfl ?_))
    rfl
  intro t s' hp
  by_cases hsome : ∃ k ∈ live, (∀ m ∈ live, k ≤ m) ∧
      ((s.ll n).queue.slots (k % ubMaxCapacity)).payload.mode ≠ .i
  · obtain ⟨k, hk, hfirst, hmode⟩ := hsome
    obtain ⟨ks, hks⟩ := toNotify_first hk hfirst hmode
    obtain ⟨t₁, t₂, t₃, r, s₃, rfl, hq₁, hnotify, hrest⟩ :=
      path_wake_first hq sized_local hw hk hfirst hmode hp
    obtain ⟨hthread, hll⟩ := path_notifyOne hnotify
    have hqueue : (s₃.ll n).queue = marked ubMaxCapacity (s.ll n).queue k := by
      rw [hll]
      simp [localQueue, Local.queue, Local.field]
    have hstop : QueueCalls.Finds ubMaxCapacity LocalWaiter.mode (s₃.ll n).queue 0 none := by
      rw [hqueue]
      exact finds_marked sized_local _
    obtain ⟨rfl, hend⟩ := path_wakeRest_stop hq hstop hrest
    have hq₃ : OfQueue (localQueue n) t₃ := by
      rcases hend with rfl | hend
      · simp [OfQueue]
      · exact ofQueue_peek hend
    have hone : (t₁ ++ (t₂ ++ t₃)).filterMap notified =
        [⟨((s.ll n).queue.slots (k % ubMaxCapacity)).payload.tid, n⟩] := by
      rw [List.filterMap_append, List.filterMap_append, notified_ofQueue hq₁, notified_ofQueue hq₃,
        hthread]
      simp [localQueue, Local.queue, Local.field, marked]
    rw [hks]
    constructor
    · intro h
      have hlen := congrArg List.length h.threads
      rw [hone, hks, List.length_map] at hlen
      exact Nat.le_of_eq hlen.symm
    · intro hlen
      obtain rfl : ks = [] := by
        rw [List.length_cons] at hlen
        exact List.length_eq_zero_iff.mp (by omega)
      refine ⟨?_, ?_, ?_⟩
      · rw [hone, hks]
        rfl
      · intro k' hk'
        rw [hks, List.mem_singleton] at hk'
        rw [hk', hqueue, marked_slot]
      · intro i hi
        rw [hks] at hi
        have hne : i ≠ k % ubMaxCapacity := fun h => hi k (List.mem_singleton_self k) h.symm
        rw [hqueue, marked_slot_of_ne hne]
  · have hnone : toNotify ubMaxCapacity LocalWaiter.mode (s.ll n).queue live = [] ∧
        ∃ j x, QueueCalls.Finds ubMaxCapacity LocalWaiter.mode (s.ll n).queue j x ∧
          (x = none ∨ x = some .i) := by
      rcases live.eq_empty_or_nonempty with rfl | hne
      · exact ⟨by simp [toNotify], _, _, hw.finds_none sized_local rfl, .inl rfl⟩
      have hk := live.min'_mem hne
      have hfirst : ∀ m ∈ live, live.min' hne ≤ m := fun m hm => live.min'_le m hm
      have hmode : ((s.ll n).queue.slots (live.min' hne % ubMaxCapacity)).payload.mode = .i := by
        by_contra h
        exact hsome ⟨_, hk, hfirst, h⟩
      refine ⟨toNotify_none hk hfirst hmode, _, _, hw.finds sized_local hk hfirst, .inr ?_⟩
      rw [hmode]
    obtain ⟨ht, hs'⟩ := path_wake_none hq hnone.2 hp
    rw [hnone.1]
    exact ⟨fun _ => Nat.zero_le 1, fun _ => followsRule_of_none ht hs' hnone.1⟩

end Local

/-- Threads 1 and 2 of node 0 wait for the local lock. -/
def twoWaiters (m₁ m₂ : Mode) : Mem :=
  { Mem.init with
    ll := fun n =>
      if n = 0 then
        { LocalLock.init with
          queue := ⟨0, 2, 2, fun i =>
            if i = 0 then ⟨.waiting, ⟨m₁, 1⟩⟩ else if i = 1 then ⟨.waiting, ⟨m₂, 2⟩⟩
            else ⟨.empty, .reset⟩⟩ }
      else .init }

theorem waiting_twoWaiters (m₁ m₂ : Mode) :
    QueueCalls.Waiting ubMaxCapacity ((twoWaiters m₁ m₂).ll 0).queue 0 2 {0, 1} where
  head := rfl
  tail := rfl
  le := by decide
  room := by decide
  window := by simp
  waits := by
    intro n hn
    rcases Finset.mem_insert.mp hn with rfl | hn
    · rfl
    · rw [Finset.mem_singleton.mp hn]
      rfl
  dead := by
    intro n _ hn hnot
    simp only [Finset.mem_insert, Finset.mem_singleton] at hnot
    omega
  count := rfl

theorem toNotify_twoWaiters (m₁ m₂ : Mode) :
    toNotify ubMaxCapacity LocalWaiter.mode ((twoWaiters m₁ m₂).ll 0).queue {0, 1} =
      [0, 1].take (batch [m₁, m₂]) := by
  have hsort : ({0, 1} : Finset ℕ).sort (· ≤ ·) = [0, 1] := by
    rw [Finset.sort_insert _ (by simp) (by simp), Finset.sort_singleton]
  rw [toNotify, hsort]
  rfl

/-- A first X is woken alone. -/
theorem followsRule_iff_x : ∃ t s', Path (LocalLock.wakeAfterUnlockExclusive 0) (twoWaiters .x .s) t () s' ∧
    FollowsRule 0 {0, 1} (twoWaiters .x .s) t s' := by
  obtain ⟨hreturns, hiff⟩ := followsRule_iff (waiting_twoWaiters .x .s)
  obtain ⟨⟨⟩, s', hr, -⟩ := hreturns.exists_run
  obtain ⟨t, hp⟩ := hr.path
  refine ⟨t, s', hp, (hiff t s' hp).mpr ?_⟩
  rw [toNotify_twoWaiters]
  decide

/-- Two readers wait. The rule wakes both, the call only the first. -/
theorem second_reader_not_woken :
    toNotify ubMaxCapacity LocalWaiter.mode ((twoWaiters .s .s).ll 0).queue {0, 1} = [0, 1] ∧
    ∃ s', Run (LocalLock.wakeAfterUnlockExclusive 0) (twoWaiters .s .s) () s' ∧
      ((s'.ll 0).queue.slots 0).seq = .notified ∧ ((s'.ll 0).queue.slots 1).seq = .waiting := by
  refine ⟨toNotify_twoWaiters .s .s, ?_⟩
  have hexec : ((LocalLock.wakeAfterUnlockExclusive 0).exec 100 (twoWaiters .s .s)).any (fun o =>
      ((o.2.ll 0).queue.slots 0).seq = .notified ∧ ((o.2.ll 0).queue.slots 1).seq = .waiting) = true := by
    decide +kernel
  obtain ⟨⟨⟨⟩, s'⟩, hr, hs'⟩ := (Option.any_eq_true _ _).mp hexec
  exact ⟨s', run_of_exec hr, of_decide_eq_true hs'⟩

/-! ### What the chain keeps -/

section Chain

variable {s s' : Mem}

/-- A property that looking and dequeuing keep is kept by the chain. -/
theorem run_wakeRest_inv {peek : Call (Option Mode)} {d : Call Unit} {I J : Mem → Prop} {m : Mode}
    (hpeek : ∀ s a s', I s → Run peek s a s' → I s' ∧ (a ≠ none → J s'))
    (hd : ∀ s s', I s → J s → Run d s () s' → I s') (hi : I s)
    (hr : Run (wakeRest peek d m) s () s') : I s' := by
  have hdeq : ∀ {β : Type} {b c : β} {s s' : Mem}, I s → J s →
      Run (d.bind fun _ => Prog.ret b) s c s' → I s' := by
    intro β b c s s' hi hj h
    obtain ⟨⟨⟩, s₁, hd₁, h⟩ := Run.of_bind h
    cases h
    exact hd s _ hi hj hd₁
  -- a round looks, and then dequeues or stops
  have hround : ∀ {ι : Type} {k : Option Mode → Call (ι ⊕ Unit)},
      (∀ a, (∃ b, k a = Prog.ret b) ∨ a ≠ none ∧ ∃ b, k a = d.bind fun _ => Prog.ret b) →
      ∀ {c s s'}, I s → Run (peek.bind k) s c s' → I s' := by
    intro ι k hk c s s' hi h
    obtain ⟨a, s₁, hlook, h⟩ := Run.of_bind h
    obtain ⟨hi₁, hj₁⟩ := hpeek s a s₁ hi hlook
    rcases hk a with ⟨b, hb⟩ | ⟨ha, b, hb⟩
    · rw [hb] at h
      cases h
      exact hi₁
    · rw [hb] at h
      exact hdeq hi₁ (hj₁ ha) h
  have hloop : ∀ {ι : Type} {k : ι → Option Mode → Call (ι ⊕ Unit)} {i : ι},
      (∀ i a, (∃ b, k i a = Prog.ret b) ∨ a ≠ none ∧ ∃ b, k i a = d.bind fun _ => Prog.ret b) →
      Run (loop (fun i => peek.bind (k i)) i) s () s' → I s' := by
    intro ι k i hk h
    exact Run.loop_inv (fun _ => I) (Q := fun _ => I) (fun i _ _ _ => hround (hk i))
      (fun i _ _ _ => hround (hk i)) hi h
  cases m with
  | s =>
    refine hloop (fun meetSx a => ?_) hr
    cases a with
    | none => exact .inl ⟨_, rfl⟩
    | some m =>
      cases m with
      | s => exact .inr ⟨by simp, _, rfl⟩
      | sx =>
        cases meetSx with
        | true => exact .inl ⟨_, rfl⟩
        | false => exact .inr ⟨by simp, _, rfl⟩
      | x => exact .inl ⟨_, rfl⟩
      | i => exact .inl ⟨_, rfl⟩
  | sx =>
    refine hloop (fun _ a => ?_) hr
    cases a with
    | none => exact .inl ⟨_, rfl⟩
    | some m =>
      cases m with
      | s => exact .inr ⟨by simp, _, rfl⟩
      | sx => exact .inl ⟨_, rfl⟩
      | x => exact .inl ⟨_, rfl⟩
      | i => exact .inl ⟨_, rfl⟩
  | x =>
    cases hr
    exact hi
  | i =>
    cases hr
    exact hi

end Chain

/-! ### Notifications that fail -/

/-- `notify_waiters` for the entry in slot `i`, in the runs in which it succeeds just if `ok i`. -/
def notifyAs (ok : ℕ → Bool) (l : Location) (i : ℕ) : Call Result := do
  let r ← notifyWaiters i l
  assuming .step (r = .success ↔ ok i = true)
  return r

/-- `DistributedLock::wake_after_unlock_exclusive` with the outcome of every notification given. -/
def wakeAs (ok : ℕ → Bool) (l : Location) : Call Unit :=
  wakeRule sharedQueue.peekHeadModeClean (dequeueWith sharedQueue (notifyAs ok l))

section Shared

variable {ok : ℕ → Bool} {l : Location} {s s' : Mem} {i : ℕ} {r : Result}

theorem refines_notifyAs (ok : ℕ → Bool) (l : Location) (i : ℕ) :
    Refines (notifyAs ok l i) (notifyWaiters i l) := by
  intro s r s' h
  obtain ⟨r', s₁, hr, h⟩ := Run.of_bind h
  obtain ⟨-, h⟩ := Run.assuming h
  cases h
  exact hr

theorem refines_wakeRule {peek : Call (Option Mode)} {d d' : Call Unit} (h : Refines d d') :
    Refines (wakeRule peek d) (wakeRule peek d') := by
  have hret : ∀ {α : Type} (a : α), Refines (Prog.ret a : Call α) (.ret a) := fun _ _ _ _ h => h
  refine .bind (fun _ _ _ h => h) fun m => ?_
  cases m with
  | none => exact hret ()
  | some m =>
    cases m with
    | x => exact .bind h fun _ => hret ()
    | i => exact hret ()
    | s =>
      refine .bind h fun _ => .loop (fun meetSx => .bind (fun _ _ _ h => h) fun m => ?_) false
      cases m with
      | none => exact hret _
      | some m =>
        cases m with
        | s => exact .bind h fun _ => hret _
        | sx =>
          dsimp only
          split_ifs
          · exact hret _
          · exact .bind h fun _ => hret _
        | x => exact hret _
        | i => exact hret _
    | sx =>
      refine .bind h fun _ => .loop (fun _ => .bind (fun _ _ _ h => h) fun m => ?_) ()
      cases m with
      | none => exact hret _
      | some m =>
        cases m with
        | s => exact .bind h fun _ => hret _
        | sx => exact hret _
        | x => exact hret _
        | i => exact hret _

/-- Every such run is a run of the source. -/
theorem refines_wakeAs (ok : ℕ → Bool) (l : Location) :
    Refines (wakeAs ok l) (wakeAfterUnlockExclusive l) := by
  refine refines_wakeRule (.loop (fun sanity => ?_) _)
  rw [dequeueRound, dequeueRound]
  by_cases hz : sanity = 0
  · rw [if_pos hz, if_pos hz]
    exact fun _ _ _ h => h
  · rw [if_neg hz, if_neg hz]
    refine .bind (fun _ _ _ h => h) fun i => ?_
    cases i with
    | none => exact fun _ _ _ h => h
    | some i => exact .bind (refines_notifyAs ok l i) fun _ => fun _ _ _ h => h

/-- The head of the shared queue one further. -/
def advanced (r : RingQueue UbWaiter) : RingQueue UbWaiter := { r with head := u32 (r.head + 1) }

theorem quiet_sendWithRetry_queue (m : Message) :
    Quiet (fun s s' : Mem => s'.shm.queue = s.shm.queue) (fun _ => True) (sendWithRetry m) := by
  refine .loop fun i => .ite trivial (.bind ⟨trivial, ?_, fun _ => trivial⟩ fun _ => trivial)
  intro s c s' b hf
  dsimp only at hf
  split_ifs at hf <;> cases hf <;> rfl

/-- A notification leaves the queue alone, or it fails and passes the head over the entry. -/
theorem run_notifyWaiters (h : Run (notifyWaiters i l) s r s') :
    s'.shm.queue = s.shm.queue ∨
      r ≠ .success ∧ s.shm.queue.head % ubMaxNodes = i ∧ s'.shm.queue = advanced s.shm.queue := by
  rw [notifyWaiters] at h
  have h := h.load
  split_ifs at h with hlocal
  · have h := (Run.load h).rmw
    cases h
    exact .inl rfl
  have h := Run.load h
  split_ifs at h with hup
  · cases h
    exact .inl rfl
  obtain ⟨ret, s₁, hsend, h⟩ := (Run.load h).of_bind
  have hqueue : s₁.shm.queue = s.shm.queue :=
    hsend.kept (q := fun s => s.shm.queue) (quiet_sendWithRetry_queue _)
  split_ifs at h with hret
  · obtain ⟨⟨⟩, s₂, hadv, h⟩ := Run.of_bind h
    cases h
    rw [advanceHeadAfterSendFail] at hadv
    have hadv := hadv.load
    split_ifs at hadv with hi
    · rcases Run.cas hadv with ⟨-, hadv⟩ | ⟨hne, -⟩
      · cases hadv
        refine .inr ⟨by decide, ?_, ?_⟩
        · rw [← hqueue]
          exact hi
        · rw [advanced, ← hqueue]
          rfl
      · exact absurd rfl hne
    · cases hadv
      exact .inl hqueue
  · cases h
    exact .inl hqueue

/-- Ticket `k` has been marked, and the head stands at it or behind it. -/
structure Stuck (k b c : ℕ) (r : RingQueue UbWaiter) (a' : ℕ) : Prop where
  le : k ≤ a'
  le' : a' ≤ b
  head : r.head = u32 a'
  tail : r.tail = u32 b
  count : r.count = c
  mark : (r.slots (k % ubMaxNodes)).seq = .notified

/-- There is a WAITING entry at the head. -/
def Ready (r : RingQueue UbWaiter) : Prop :=
  r.head ≠ r.tail ∧ (r.slots (r.head % ubMaxNodes)).seq = .waiting

theorem sized_shared : WaitQueue.Sized ubMaxNodes := WaitQueue.sized_two_pow (k := 4) (by decide)

theorem lawful_shared : sharedQueue.ref.Lawful :=
  ⟨fun _ _ => rfl, fun _ _ _ => rfl, fun _ => rfl⟩

theorem stuck_peek {k b c a' : ℕ} {a : Option Mode} (h : Stuck k b c s.shm.queue a')
    (hr : Run sharedQueue.peekHeadModeClean s a s') :
    (∃ a'', Stuck k b c s'.shm.queue a'') ∧ (a ≠ none → Ready s'.shm.queue) := by
  obtain ⟨j, ⟨hdead, hans⟩, hs'⟩ := hr.sound (QueueCalls.ends_peekHeadModeClean lawful_shared)
  obtain rfl : s' = _ := hs'
  have hahead : QueueCalls.ahead s.shm.queue j = u32 (a' + j) := QueueCalls.ahead_eq h.head j
  have hle : a' + j ≤ b := by
    by_contra hgt
    have hle' := h.le'
    refine (hdead (b - a') (by omega)).1 ?_
    have hlast : QueueCalls.ahead s.shm.queue (b - a') = u32 (a' + (b - a')) :=
      QueueCalls.ahead_eq h.head _
    rw [Nat.add_sub_cancel' hle'] at hlast
    exact hlast.trans h.tail.symm
  refine ⟨⟨a' + j, ⟨Nat.le_trans h.le (Nat.le_add_right a' j), hle, hahead, h.tail, h.count, h.mark⟩⟩, ?_⟩
  intro ha
  cases a with
  | none => exact absurd rfl ha
  | some m => exact ⟨hans.1, hans.2.1⟩

theorem stuck_dequeue {k b c a' : ℕ} (h : Stuck k b c s.shm.queue a') (hready : Ready s.shm.queue)
    (hr : Run (dequeueWith sharedQueue (notifyAs ok l)) s () s') :
    ∃ a'', Stuck k b c s'.shm.queue a'' := by
  obtain ⟨t, hp⟩ := hr.path
  obtain ⟨-, t₂, r, -, -, hnotify⟩ := path_dequeueWith (by decide) hready.2 hp
  have hne : k % ubMaxNodes ≠ s.shm.queue.head % ubMaxNodes := by
    intro hk
    have hmark := h.mark
    rw [hk, hready.2] at hmark
    cases hmark
  -- the entry at the head is another one, so the mark stays
  have hmarked : Stuck k b c (WaitQueue.notifyHead ubMaxNodes s.shm.queue) a' := by
    refine ⟨h.le, h.le', h.head, h.tail, h.count, ?_⟩
    rw [WaitQueue.notifyHead]
    simp only [Function.update_of_ne hne]
    exact h.mark
  rcases run_notifyWaiters (refines_notifyAs ok l _ _ _ _ hnotify.run) with hsame | ⟨-, -, hadv⟩
  · rw [hsame]
    exact ⟨a', hmarked⟩
  · rw [hadv]
    have hlt : a' ≠ b := fun hab => hready.1 (by rw [h.head, h.tail, hab])
    have hle' := h.le'
    refine ⟨a' + 1, Nat.le_succ_of_le h.le, by omega, ?_, hmarked.tail, hmarked.count, hmarked.mark⟩
    show u32 (s.shm.queue.head + 1) = _
    rw [h.head, WaitQueue.u32_succ]

/-- The lock can still be handed on: some entry that is NOTIFIED has been reached, none that has not
    been reached is left NOTIFIED, and the count is that of the entries left. -/
structure Recovers (ok : ℕ → Bool) (a b : ℕ) (live : Finset ℕ) (r : RingQueue UbWaiter) (a' : ℕ) :
    Prop where
  le : a ≤ a'
  le' : a' ≤ b
  head : r.head = u32 a'
  woken : ∃ n ∈ live, a' ≤ n ∧ (r.slots (n % ubMaxNodes)).seq = .notified ∧ ok (n % ubMaxNodes) = true
  failed : ∀ n ∈ live, a' ≤ n → (r.slots (n % ubMaxNodes)).seq = .notified → ok (n % ubMaxNodes) = true
  count : r.count = (live.filter fun n => a' ≤ n ∧ ((r.slots (n % ubMaxNodes)).seq = .waiting ∨
    (r.slots (n % ubMaxNodes)).seq = .notified)).card

/-- An entry that was marked and not reached is still there, or still counted. -/
theorem Stuck.not_recovers {a b k a' a'' : ℕ} {live : Finset ℕ} {r : RingQueue UbWaiter}
    (h : Stuck k b live.card r a') (hroom : b ≤ a + ubMaxNodes) (hak : a ≤ k) (hk : k ∈ live)
    (hok : ok (k % ubMaxNodes) = false) : ¬ Recovers ok a b live r a'' := by
  intro hrec
  have h16 : b ≤ a + 16 := hroom
  have heq : a'' = a' := by
    have hu : u32 a'' = u32 a' := hrec.head.symm.trans h.head
    have h₁ := hrec.le
    have h₂ := hrec.le'
    have h₃ := h.le
    have h₄ := h.le'
    unfold u32 at hu
    omega
  subst heq
  rcases Nat.eq_or_lt_of_le h.le with rfl | hlt
  · rw [hrec.failed k hk (Nat.le_refl k) h.mark] at hok
    cases hok
  · have hcount := hrec.count
    rw [h.count] at hcount
    have hsub : (live.filter fun n => a'' ≤ n ∧ ((r.slots (n % ubMaxNodes)).seq = .waiting ∨
        (r.slots (n % ubMaxNodes)).seq = .notified)) ⊂ live := by
      refine Finset.filter_ssubset.mpr ⟨k, hk, fun hle => ?_⟩
      omega
    have hcard := Finset.card_lt_card hsub
    omega

/-- The first entry is marked, and nothing else has happened. -/
theorem recovers_marked {a b k : ℕ} {live : Finset ℕ}
    (hw : QueueCalls.Waiting ubMaxNodes s.shm.queue a b live) (hk : k ∈ live)
    (hfirst : ∀ n ∈ live, k ≤ n) (hok : ok (k % ubMaxNodes) = true) :
    Recovers ok a b live (marked ubMaxNodes s.shm.queue k) k := by
  have hroom : b ≤ a + ubMaxNodes := hw.room
  have hwk := hw.window k hk
  have hother : ∀ n ∈ live, n ≠ k →
      ((marked ubMaxNodes s.shm.queue k).slots (n % ubMaxNodes)).seq = .waiting := by
    intro n hn hne
    have hwn := hw.window n hn
    have hslot : n % ubMaxNodes ≠ k % ubMaxNodes := fun h =>
      hne (WaitQueue.eq_of_mod_eq hwn.1 (by omega) hwk.1 (by omega) h)
    rw [marked_slot_of_ne hslot]
    exact hw.waits n hn
  have hself : ((marked ubMaxNodes s.shm.queue k).slots (k % ubMaxNodes)).seq = .notified := by
    rw [marked_slot]
  refine ⟨hwk.1, hwk.2.le, rfl, ⟨k, hk, Nat.le_refl k, hself, hok⟩, ?_, ?_⟩
  · intro n hn _ hnot
    rcases eq_or_ne n k with rfl | hne
    · exact hok
    · rw [hother n hn hne] at hnot
      cases hnot
  · rw [Finset.filter_true_of_mem]
    · exact hw.count
    · intro n hn
      refine ⟨hfirst n hn, ?_⟩
      rcases eq_or_ne n k with rfl | hne
      · exact .inr hself
      · exact .inl (hother n hn hne)

/-- Under an assignment of outcomes, the wake-up recovers exactly if the first waiting entry is
    reached. -/
theorem recovers_iff {a b k : ℕ} {live : Finset ℕ}
    (hw : QueueCalls.Waiting ubMaxNodes s.shm.queue a b live) (hk : k ∈ live)
    (hfirst : ∀ n ∈ live, k ≤ n) (hr : Run (wakeAs ok l) s () s') :
    (∃ a', Recovers ok a b live s'.shm.queue a') ↔
      ok (k % ubMaxNodes) = true ∧ (s.shm.queue.slots (k % ubMaxNodes)).payload.mode ≠ .i := by
  obtain ⟨t, hp⟩ := hr.path
  by_cases hmode : (s.shm.queue.slots (k % ubMaxNodes)).payload.mode = .i
  · -- nobody is marked
    refine ⟨?_, fun h => absurd hmode h.2⟩
    rintro ⟨a', hrec⟩
    have hfind : QueueCalls.Finds _ UbWaiter.mode _ _ _ := hw.finds sized_shared hk hfirst
    obtain ⟨-, j, hs'⟩ := path_wake_none lawful_shared ⟨_, _, hfind, .inr (by rw [hmode])⟩ hp
    obtain rfl : s' = _ := hs'
    obtain ⟨n, hn, -, hnot, -⟩ := hrec.woken
    have hwait := hw.waits n hn
    rw [show (s.shm.queue.slots (n % ubMaxNodes)).seq = .notified from hnot] at hwait
    cases hwait
  obtain ⟨t₁, t₂, t₃, r, s₃, -, -, hnotify, hrest⟩ :=
    path_wake_first lawful_shared sized_shared hw hk hfirst hmode hp
  obtain ⟨r', s₂, hn, hassume⟩ := Run.of_bind hnotify.run
  obtain ⟨hiff, hret⟩ := Run.assuming hassume
  cases hret
  have hqueue := run_notifyWaiters hn
  cases hok : ok (k % ubMaxNodes) with
  | true =>
    refine ⟨fun _ => ⟨rfl, hmode⟩, fun _ => ⟨k, ?_⟩⟩
    have hsucc : r = .success := hiff.mpr hok
    have hsame : s₃.shm.queue = marked ubMaxNodes s.shm.queue k := by
      rcases hqueue with hsame | ⟨hfail, -⟩
      · exact hsame
      · exact absurd hsucc hfail
    have hstop : QueueCalls.Finds ubMaxNodes UbWaiter.mode s₃.shm.queue 0 none := by
      rw [hsame]
      exact finds_marked sized_shared _
    obtain ⟨rfl, -⟩ := path_wakeRest_stop lawful_shared hstop hrest
    rw [hsame]
    exact recovers_marked hw hk hfirst hok
  | false =>
    refine ⟨?_, fun h => Bool.noConfusion h.1⟩
    have hwk := hw.window k hk
    have hmark : ((marked ubMaxNodes s.shm.queue k).slots (k % ubMaxNodes)).seq = .notified := by
      rw [marked_slot]
    have hstuck : ∃ a', Stuck k b live.card s₃.shm.queue a' := by
      rcases hqueue with hsame | ⟨-, -, hadv⟩
      · refine ⟨k, ?_⟩
        rw [hsame]
        exact ⟨Nat.le_refl k, hwk.2.le, rfl, hw.tail, hw.count, hmark⟩
      · refine ⟨k + 1, ?_⟩
        rw [hadv]
        exact ⟨Nat.le_succ k, hwk.2, WaitQueue.u32_succ k, hw.tail, hw.count, hmark⟩
    obtain ⟨a'', hend⟩ : ∃ a', Stuck k b live.card s'.shm.queue a' :=
      run_wakeRest_inv (I := fun s => ∃ a', Stuck k b live.card s.shm.queue a')
        (J := fun s => Ready s.shm.queue) (fun s a s' h hr => stuck_peek h.choose_spec hr)
        (fun s s' h hj hr => stuck_dequeue h.choose_spec hj hr) hstuck hrest.run
    rintro ⟨a', hrec⟩
    exact absurd hrec (hend.not_recovers hw.room hwk.1 hk hok)

end Shared

/-- Two threads wait for X: thread 2 of node `n` and thread 3 of node 0, which has its wait context. -/
def twoGlobalWaiters (n : NodeId) : Mem :=
  { Mem.init with
    shm := { UbRwLock.init with
      queue := ⟨0, 2, 2, fun i =>
        if i = 0 then ⟨.waiting, ⟨.x, ⟨2, n⟩⟩⟩ else if i = 1 then ⟨.waiting, ⟨.x, ⟨3, 0⟩⟩⟩
        else ⟨.empty, .reset⟩⟩ }
    waiters := fun n t => if n = 0 ∧ (t = 2 ∨ t = 3) then some false else none }

theorem waiting_twoGlobalWaiters (n : NodeId) :
    QueueCalls.Waiting ubMaxNodes (twoGlobalWaiters n).shm.queue 0 2 {0, 1} where
  head := rfl
  tail := rfl
  le := by decide
  room := by decide
  window := by simp
  waits := by
    intro k hk
    rcases Finset.mem_insert.mp hk with rfl | hk
    · rfl
    · rw [Finset.mem_singleton.mp hk]
      rfl
  dead := by
    intro k _ hk hnot
    simp only [Finset.mem_insert, Finset.mem_singleton] at hnot
    omega
  count := rfl

/-- Both waiters are threads of node 0, and the first is reached. -/
theorem recovers_iff_local : ∃ s', Run (wakeAs (fun _ => true) ⟨1, 0⟩) (twoGlobalWaiters 0) () s' ∧
    ∃ a', Recovers (fun _ => true) 0 2 {0, 1} s'.shm.queue a' := by
  have hexec : ((wakeAs (fun _ => true) ⟨1, 0⟩).exec 100 (twoGlobalWaiters 0)).isSome = true := by
    decide +kernel
  obtain ⟨⟨⟨⟩, s'⟩, hr⟩ := Option.isSome_iff_exists.mp hexec
  have hrun := run_of_exec hr
  refine ⟨s', hrun, (recovers_iff (waiting_twoGlobalWaiters 0) (k := 0) (by simp) (by simp) hrun).mpr ?_⟩
  exact ⟨rfl, by decide⟩

/-- The message to node 1 fails. The other waiter could be reached, but nobody tries; the entry that
    failed is out of the queue and still counted. -/
theorem failed_send_wakes_nobody : ∃ s',
    Run (wakeAs (fun i => i == 1) ⟨1, 0⟩) (twoGlobalWaiters 1) () s' ∧
    Run (wakeAfterUnlockExclusive ⟨1, 0⟩) (twoGlobalWaiters 1) () s' ∧ s'.shm.queue.head = 1 ∧
    s'.shm.queue.count = 2 ∧ (s'.shm.queue.slots 0).seq = .notified ∧
    (s'.shm.queue.slots 1).seq = .waiting := by
  have hexec : (execBy (fun _ => 1) 200 0 (wakeAs (fun i => i == 1) ⟨1, 0⟩) (twoGlobalWaiters 1)).any
      (fun o => o.2.shm.queue.head = 1 ∧ o.2.shm.queue.count = 2 ∧
        (o.2.shm.queue.slots 0).seq = .notified ∧ (o.2.shm.queue.slots 1).seq = .waiting) = true := by
    decide +kernel
  obtain ⟨⟨⟨⟩, s'⟩, hr, hs'⟩ := (Option.any_eq_true _ _).mp hexec
  have hrun := run_of_execBy hr
  exact ⟨s', hrun, refines_wakeAs _ _ _ _ _ hrun, of_decide_eq_true hs'⟩

end WakeChain

end UbsAtomic
