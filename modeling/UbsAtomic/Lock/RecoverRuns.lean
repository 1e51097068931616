import UbsAtomic.Lock.Recover

/-! What a whole call to `recover` leaves behind.

        holds          those of the failed process are gone, the others are as they were
        reservation    gone if the failed process held anything
        queue          no half-written entry, no entry of the failed process that still counts;
                       in a free lock the first waiter has been told
        references     one less, but never less than one

    A second call therefore finds nothing to do but another reference to drop. -/

namespace UbsAtomic

open Conc Conc.Prog

namespace Recover

/-! ### The queue -/

section Queue

variable {m m' : Mem} {p i : ℕ} {l : Location}

/-- A slot that recovery leaves as it is. -/
def Tidy (p : ℕ) (x : Slot UbWaiter) : Prop :=
  x.seq ≠ .writing ∧ (x.payload.location.nodeId.val = p → x.seq = .empty ∨ x.seq = .timeout)

/-- The slots in `D` are tidy, and the counters are 32-bit numbers. -/
structure Neat (p : ℕ) (D : ℕ → Prop) (r : RingQueue UbWaiter) : Prop where
  tidy : ∀ i, D i → Tidy p (r.slots i)
  head : r.head < 4294967296
  tail : r.tail < 4294967296

/-- What is tidy stays so. -/
def Keeps (p : ℕ) (m m' : Mem) : Prop := ∀ D, Neat p D m.shm.queue → Neat p D m'.shm.queue

theorem Keeps.of_queue (h : m'.shm.queue = m.shm.queue) : Keeps p m m' := fun _ hn => h ▸ hn

theorem keeps_head (h : ℕ) (m : Mem) : Keeps p m (sharedQueue.head.set (u32 h) m) :=
  fun _ hn => ⟨hn.tidy, Nat.mod_lt _ (by decide), hn.tail⟩

theorem keeps_slot {x : Slot UbWaiter} (hx : Tidy p (m.shm.queue.slots i) → Tidy p x)
    (h : m'.shm.queue = { m.shm.queue with slots := Function.update m.shm.queue.slots i x }) :
    Keeps p m m' := by
  intro D hn
  rw [h]
  refine ⟨fun k hk => ?_, hn.head, hn.tail⟩
  rcases eq_or_ne k i with rfl | hne
  · simpa using hx (hn.tidy k hk)
  · simpa [hne] using hn.tidy k hk

theorem keeps_load {α : Type} {e : Label} {q : Place Mem α} : Quiet (Keeps p) AnyLabel (loadAt e q) :=
  .read trivial fun _ => .of_queue rfl

theorem keeps_tryDecCount : Quiet (Keeps p) AnyLabel sharedQueue.tryDecCount :=
  .bind keeps_load fun _ => .loop fun _ => .ite trivial <| .bind
    (.casWeak trivial (fun _ => .of_queue rfl) fun _ _ hn => ⟨hn.tidy, hn.head, hn.tail⟩) fun _ => trivial

theorem keeps_tryMarkTimeout (hp : p < ubMaxNodes) :
    Quiet (Keeps p) AnyLabel (sharedQueue.tryMarkTimeout i) := by
  refine .bind keeps_load fun _ => .loop fun _ => .ite ?_ trivial
  refine .bind (.casWeak trivial (fun _ => .of_queue rfl) fun s => ?_) fun _ => .ite ?_ trivial
  · exact keeps_slot (fun _ => ⟨by simp, fun _ => .inr rfl⟩) rfl
  have hreset : ¬ UbWaiter.reset.location.nodeId.val = p := (lt_trans hp (by decide)).ne'
  exact .bind (.write trivial fun s =>
    keeps_slot (x := ⟨(s.shm.queue.slots (sharedQueue.index i)).seq, .reset⟩)
      (fun h => ⟨h.1, fun hn => absurd hn hreset⟩) rfl) fun _ => .bind keeps_tryDecCount fun _ => trivial

theorem keeps_cleanSlot (hp : p < ubMaxNodes) : Quiet (Keeps p) AnyLabel (cleanSlot p i) :=
  .bind keeps_load fun _ => .ite (.bind (keeps_tryMarkTimeout hp) fun _ => trivial) <|
    .bind keeps_load fun _ => .ite trivial (.bind (keeps_tryMarkTimeout hp) fun _ => trivial)

theorem keeps_peek : Quiet (Keeps p) AnyLabel sharedQueue.peekHeadModeClean :=
  .loop fun _ => .bind keeps_load fun _ => .bind keeps_load fun _ => .ite trivial <|
    .bind keeps_load fun
      | .writing | .notified | .empty => trivial
      | .waiting => .bind keeps_load fun _ => trivial
      | .timeout => .bind (.casWeak trivial (fun _ => .of_queue rfl) (keeps_head _)) fun _ => trivial

theorem keeps_outqueue : Quiet (Keeps p) AnyLabel sharedQueue.outqueue := by
  refine .loop fun _ => .ite trivial <| .bind keeps_load fun h => .bind keeps_load fun _ =>
    .ite trivial <| .ite (.bind (.cas trivial (fun _ => .of_queue rfl) fun s hs => ?_)
      fun _ => trivial) trivial
  refine keeps_slot (fun ht => ⟨by simp, fun hn => ?_⟩) rfl
  have hs : (s.shm.queue.slots (sharedQueue.index h)).seq = .waiting := hs
  rcases ht.2 hn with he | he <;> simp [hs] at he

/-- Waking leaves tidy slots tidy, whatever becomes of the messages. -/
theorem keeps_wakeIfFree (l : Location) : Quiet (Keeps p) AnyLabel (wakeIfFree l) := by
  have hfail : ∀ i, Quiet (Keeps p) AnyLabel (advanceHeadAfterSendFail i) := fun i =>
    .bind keeps_load fun h => .ite
      (.bind (.cas trivial (fun _ => .of_queue rfl) fun s _ => keeps_head _ s) fun _ => trivial) trivial
  have hsend : ∀ g, Quiet (Keeps p) AnyLabel (sendWithRetry g) := fun g =>
    (WakeChain.quiet_sendWithRetry_queue g).mono (fun _ _ h => .of_queue h) fun _ h => h
  have hnotify : ∀ i, Quiet (Keeps p) AnyLabel (notifyWaiters i l) := fun i =>
    .bind keeps_load fun _ => .ite
      (.bind keeps_load fun _ => .bind (.rmw trivial fun _ _ => .of_queue rfl) fun _ => trivial) <|
      .bind keeps_load fun _ => .ite trivial <| .bind keeps_load fun _ => .bind (hsend _) fun _ =>
        .ite (.bind (hfail i) fun _ => trivial) trivial
  exact .bind keeps_load fun _ =>
    quiet_ifThen (quiet_wakeRule keeps_peek (quiet_dequeueWith keeps_outqueue hnotify))

/-- A run of such steps. -/
theorem Keeps.of_run {α : Type} {a : α} {q : Call α} (hr : Run q m a m')
    (hq : Quiet (Keeps p) AnyLabel q) : Keeps p m m' :=
  hr.quiet (R := Keeps p) (fun _ => .of_queue rfl) (fun h h' D hn => h' D (h D hn)) hq

theorem ends_tryMarkTimeout (hi : i < ubMaxNodes) :
    (sharedQueue.tryMarkTimeout i).seq id (fun _ m' => Tidy p (m'.shm.queue.slots i)) m := by
  have hindex : sharedQueue.index i = i := Nat.mod_eq_of_lt hi
  rw [QueueRef.tryMarkTimeout, hindex]
  refine wp_bind (seq_load ⟨fun _ => rfl, fun _ _ => rfl⟩ ?_)
  refine wp_loop (fun seq v => seq = (v.shm.queue.slots i).seq) trivial rfl ?_
  rintro _ v rfl
  split_ifs with hlive
  · refine wp_bind (seq_casWeak ⟨fun _ => rfl, fun _ _ => rfl⟩ (fun _ => ?_) ⟨trivial, rfl⟩)
    refine wp_bind (seq_store ⟨fun _ => rfl, fun _ _ => rfl⟩ (wp_bind ?_))
    have htidy : ∀ v : Mem, (v.shm.queue.slots i).seq = .timeout → Tidy p (v.shm.queue.slots i) :=
      fun v h => ⟨by simp [h], fun _ => .inr h⟩
    refine wp_bind (seq_load ⟨fun _ => rfl, fun _ _ => rfl⟩ ?_)
    refine wp_loop (fun _ v => (v.shm.queue.slots i).seq = .timeout) trivial ?_ ?_
    · simp [sharedQueue, QueueRef.seq, QueueRef.payload, Place.comp, shmField]
    rintro cur v hv
    split
    · exact ⟨trivial, trivial, htidy v hv⟩
    · exact wp_bind (seq_casWeak ⟨fun _ => rfl, fun _ _ => rfl⟩
        (fun _ => ⟨trivial, trivial, htidy _ hv⟩) ⟨trivial, hv⟩)
  · refine ⟨trivial, fun hw => hlive (.inl hw), fun _ => ?_⟩
    cases hs : (v.shm.queue.slots i).seq <;> simp_all

/-- The slot that was looked at is tidy. -/
theorem ends_cleanSlot (hi : i < ubMaxNodes) :
    (cleanSlot p i).seq id (fun _ m' => Tidy p (m'.shm.queue.slots i)) m := by
  have hmark : ((sharedQueue.tryMarkTimeout i).bind fun _ => .ret ()).seq id
      (fun _ m' => Tidy p (m'.shm.queue.slots i)) m :=
    wp_bind (wp_mono (ends_tryMarkTimeout hi) fun _ _ _ h => ⟨trivial, h⟩)
  refine wp_bind (seq_load ⟨fun _ => rfl, fun _ _ => rfl⟩ ?_)
  split_ifs with hw
  · exact hmark
  refine wp_bind (seq_load ⟨fun _ => rfl, fun _ _ => rfl⟩ ?_)
  split_ifs with hn
  · exact ⟨trivial, hw, fun h => absurd h hn⟩
  · exact hmark

theorem run_cleanSlots (hp : p < ubMaxNodes) {is : List ℕ} (his : ∀ i ∈ is, i < ubMaxNodes)
    {D : ℕ → Prop} (hn : Neat p D m.shm.queue) (hr : Run (cleanSlots p is) m () m') :
    Neat p (fun i => i ∈ is ∨ D i) m'.shm.queue := by
  induction is generalizing m D with
  | nil =>
    cases hr
    exact ⟨fun i hi => hn.tidy i (by simpa using hi), hn.head, hn.tail⟩
  | cons i is ih =>
    obtain ⟨_, m₁, h₁, hr⟩ := Run.of_bind hr
    obtain ⟨htidy, hh, ht⟩ := Keeps.of_run h₁ (keeps_cleanSlot hp) D hn
    have hself := h₁.sound (ends_cleanSlot (p := p) (his i (by simp)))
    have hn₁ : Neat p (fun k => k = i ∨ D k) m₁.shm.queue := by
      refine ⟨?_, hh, ht⟩
      rintro k (rfl | hk)
      · exact hself
      · exact htidy k hk
    obtain ⟨htidy, hh, ht⟩ := ih (fun k hk => his k (by simp [hk])) hn₁ hr
    refine ⟨fun k hk => htidy k ?_, hh, ht⟩
    rw [List.mem_cons] at hk
    tauto

theorem run_cleanAll (hp : p < ubMaxNodes)
    (hr : Run (cleanSlots p (List.range ubMaxNodes)) m () m')
    (hhead : m.shm.queue.head < 4294967296) (htail : m.shm.queue.tail < 4294967296) :
    Neat p (· < ubMaxNodes) m'.shm.queue := by
  have hn : Neat p (fun _ => False) m.shm.queue := ⟨fun _ h => h.elim, hhead, htail⟩
  obtain ⟨htidy, hh, ht⟩ := run_cleanSlots hp (fun i hi => List.mem_range.mp hi) hn hr
  exact ⟨fun i hi => htidy i (.inl (List.mem_range.mpr hi)), hh, ht⟩

theorem cleanSlots_returns (p : ℕ) (is : List ℕ) :
    Total (· = 0) (fun _ _ => True) (cleanSlots p is) m := by
  have hmark : ∀ {i m}, Total (· = 0) (fun _ _ => True) (sharedQueue.tryMarkTimeout i) m := by
    intro i m
    refine .bind (total_load rfl (total_loop ?_))
    split_ifs with hlive
    · refine .bind (total_casWeak (fun _ => .bind (total_store rfl (.bind ?_))) fun hne => absurd rfl hne)
      refine .bind (total_load rfl (total_loop ?_))
      split_ifs with hz
      · exact .ret (.ret trivial)
      · exact .bind (total_casWeak (fun _ => .ret (.ret trivial)) fun hne => absurd rfl hne)
    · exact .ret trivial
  induction is generalizing m with
  | nil => exact .ret trivial
  | cons i is ih =>
    refine .bind (.bind (total_load rfl ?_))
    split_ifs with hw
    · exact .bind (hmark.mono fun _ _ _ => .ret ih)
    refine .bind (total_load rfl ?_)
    split_ifs with hn
    · exact .ret ih
    · exact .bind (hmark.mono fun _ _ _ => .ret ih)

end Queue

/-! ### Waking -/

section Wake

variable {m m' : Mem} {p j : ℕ} {l : Location} {r : RingQueue UbWaiter} {x : Option Mode}

/-- Whoever is first in the queue has been told, or cannot be woken. -/
def Settled (r : RingQueue UbWaiter) : Prop :=
  ∃ x, QueueCalls.Finds ubMaxNodes UbWaiter.mode r 0 x ∧ (x = none ∨ x = some .i)

theorem total_sendWithRetry (g : Message) : Total (· = 0)
    (fun b m' => b = .success ∧ m'.shm = m.shm) (sendWithRetry g) m := by
  refine total_loop (.bind (.act ⟨0, rfl, rfl⟩ ?_))
  rintro c s' b rfl hf
  cases hf
  exact .ret (.ret ⟨rfl, rfl⟩)

theorem total_notifyWaiters (i : ℕ) : Total (· = 0)
    (fun _ m' => m'.shm.queue = m.shm.queue) (notifyWaiters i l) m := by
  refine .bind (total_load rfl ?_)
  split_ifs with hlocal
  · exact .bind (total_load rfl (.bind (total_rmw rfl (.ret rfl))))
  refine .bind (total_load rfl ?_)
  split_ifs with hup
  · exact .ret rfl
  refine .bind (total_load rfl (.bind ((total_sendWithRetry _).mono ?_)))
  rintro b m₁ ⟨rfl, hm₁⟩
  rw [if_neg (not_not.mpr rfl)]
  exact .ret (congrArg UbRwLock.queue hm₁)

/-- What only waits or wakes leaves the shared object alone, but for its queue. -/
theorem core_of_run {α : Type} {N : Label → Prop} {q : Call α} {a : α} (hr : Run q m a m')
    (hq : Quiet SameFace N q) : m'.shm.core = m.shm.core :=
  congrArg Mem.shm (hr.quiet (R := SameFace) (fun _ => rfl) (fun h h' => Eq.trans h' h) hq)

theorem settled_woken (hfind : QueueCalls.Finds ubMaxNodes UbWaiter.mode r j x) :
    Settled (WakeChain.woken ubMaxNodes r j x) := by
  have hmark : Settled (WaitQueue.notifyHead ubMaxNodes (QueueCalls.skip r j)) :=
    ⟨none, WakeChain.finds_notifyHead _, .inl rfl⟩
  cases x with
  | none => exact ⟨none, hfind.skip, .inl rfl⟩
  | some mode =>
    cases mode with
    | i => exact ⟨some .i, hfind.skip, .inr rfl⟩
    | s => exact hmark
    | x => exact hmark
    | sx => exact hmark

end Wake

/-! ### The whole call -/

/-- The reference count when one reference is dropped. -/
def dropRef (n : ℤ) : ℤ := if n ≤ 1 then n else n - 1

section Whole

variable {swap : Swap} {C : ℕ → Prop} {m m' : Mem} {p : ℕ} {l : Location} {c : Holding}

theorem total_dropReference (hw : swap.Steady C) (hC : C 0) : Total C (fun _ m' => m' =
    Shm.isInited.set (dropRef m.shm.isInited) m) (dropReference swap) m := by
  refine .bind (total_load hC (total_loop ?_))
  have hget : Shm.isInited.get m = m.shm.isInited := rfl
  rw [hget, dropRef]
  by_cases hle : m.shm.isInited ≤ 1
  · rw [if_pos hle, if_pos hle]
    exact .ret rfl
  · rw [if_neg hle, if_neg hle]
    exact .bind (hw _ _ _ _ _ (fun _ => .ret rfl) fun hne => absurd rfl hne)

theorem quiet_cleanSlots (p : ℕ) (is : List ℕ) : Quiet SameFace Label.Plain (cleanSlots p is) := by
  induction is with
  | nil => exact trivial
  | cons i is ih =>
    refine .bind (.bind (sharedQueue_silent.load) fun seq => ?_) fun _ => ih
    refine .ite (.bind (sharedQueue_silent.tryMarkTimeout i) fun _ => trivial) ?_
    refine .bind (sharedQueue_silent.load) fun w => .ite trivial ?_
    exact .bind (sharedQueue_silent.tryMarkTimeout i) fun _ => trivial

theorem quiet_wakeIfFree (l : Location) : Quiet SameFace Label.Plain (wakeIfFree l) :=
  .bind quiet_load fun _ => quiet_ifThen (quiet_wakeAfterUnlockExclusive l)

/-- The shared object after `recover`, whatever has become of its queue. -/
noncomputable def left (c : Holding) (p : ℕ) (u : UbRwLock) : UbRwLock :=
  { c.recovered p u with isInited := dropRef u.isInited }

theorem encodes_of_core {u v : UbRwLock} (he : c.Encodes u) (h : v.core = u.core) : c.Encodes v where
  word := (congrArg UbRwLock.lockWord h).trans he.word
  ownerX := (congrArg UbRwLock.lockOwnerX h).trans he.ownerX
  depthX := (congrArg UbRwLock.xRecursive h).trans he.depthX
  ownerSx := (congrArg UbRwLock.lockOwnerSx h).trans he.ownerSx
  depthSx := (congrArg UbRwLock.sxRecursive h).trans he.depthSx
  bitmap := (congrArg (fun w => Bits.ones w.sharedOwnerBitmap) h).trans he.bitmap

theorem encodes_left {u : UbRwLock} (he : c.Encodes u) (hp : p < ubMaxNodes) :
    (c.without p).Encodes (left c p u) := by
  obtain ⟨h₁, h₂, h₃, h₄, h₅, h₆⟩ := Holding.encodes_recovered he hp
  exact ⟨h₁, h₂, h₃, h₄, h₅, h₆⟩

theorem core_left {u v : UbRwLock} (h : v.core = (c.recovered p u).core) :
    UbRwLock.core { v with isInited := dropRef v.isInited } = (left c p u).core := by
  have hi : v.isInited = u.isInited := by
    have hi := congrArg UbRwLock.isInited h
    exact hi
  rw [hi]
  exact congrArg (fun w : UbRwLock => { w with isInited := dropRef u.isInited }) h

/-- The queue after `recover`. -/
structure QueueLeft (p : ℕ) (u : UbRwLock) : Prop where
  neat : Neat p (· < ubMaxNodes) u.queue
  settled : u.lockWord = xLockDecr → Settled u.queue

theorem total_wakeIfFree (hn : Neat p (· < ubMaxNodes) m.shm.queue) : Total (· = 0)
    (fun _ m' => m'.shm.core = m.shm.core ∧ QueueLeft p m'.shm) (wakeIfFree l) m := by
  have hwake : Total (· = 0) (fun _ m' => m.shm.lockWord = xLockDecr → Settled m'.shm.queue)
      (wakeIfFree l) m := by
    refine .bind (total_load rfl ?_)
    have hget : Shm.lockWord.get m = m.shm.lockWord := rfl
    rw [hget, ifThen]
    split_ifs with hfree
    · obtain ⟨j, x, hfind⟩ := QueueCalls.exists_finds UbWaiter.mode hn.head hn.tail
        (fun i hi => (hn.tidy i hi).1) (by decide)
      refine (WakeChain.total_wakeRule WakeChain.lawful_shared (by decide) hfind
        fun s i => total_notifyWaiters i).mono fun _ m' hm' _ => ?_
      have hm' : m'.shm.queue = _ := hm'
      rw [hm']
      exact settled_woken hfind
    · exact .ret fun h => absurd (by simpa using h) hfree
  refine (hwake.and (hwake.of_run fun _ m' hr => (⟨core_of_run hr (quiet_wakeIfFree l),
    Keeps.of_run hr (keeps_wakeIfFree l) _ hn⟩ : _ ∧ _))).mono fun _ m' h => ?_
  obtain ⟨hs, hcore, hn'⟩ := h
  have hword := congrArg UbRwLock.lockWord hcore
  have hword : m'.shm.lockWord = m.shm.lockWord := hword
  exact ⟨hcore, hn', fun hfree => hs (hword ▸ hfree)⟩

/-- `recover` returns and gives up the holds of node `p`. -/
theorem total_recoverBy (hw : swap.Steady (· = 0)) (hp : p < ubMaxNodes) (hv : c.Valid)
    (he : c.Encodes m.shm) (hinit : 0 ≤ m.shm.isInited) (hhead : m.shm.queue.head < 4294967296)
    (htail : m.shm.queue.tail < 4294967296) : Total (· = 0) (fun a m' => a = .success ∧
      m'.shm.core = (left c p m.shm).core ∧ QueueLeft p m'.shm) (recoverBy swap p l) m := by
  rw [recoverBy, if_neg (Nat.not_le.mpr hp)]
  refine .bind (total_load rfl ?_)
  have hget : Shm.isInited.get m = m.shm.isInited := rfl
  rw [hget, if_neg (Int.not_lt.mpr hinit)]
  refine .bind ((total_recoverHolds hw rfl hp hv he).mono fun _ m₁ hm₁ => ?_)
  subst hm₁
  refine .bind ((cleanSlots_returns p _).of_run fun _ m₂ hr => ?_)
  have hcore := core_of_run hr (quiet_cleanSlots p _)
  refine .bind ((total_wakeIfFree (run_cleanAll hp hr hhead htail)).mono fun _ m₃ hm₃ => ?_)
  refine .bind ((total_dropReference hw rfl).mono fun _ m₄ hm₄ => ?_)
  obtain ⟨hsame, hn, hs⟩ := hm₃
  subst hm₄
  exact .ret ⟨rfl, core_left (hsame.trans hcore), hn, hs⟩

/-- With a compare-and-swap that does not fail for no reason this is so in every run, whatever becomes
    of the messages. -/
theorem run_recoverBy_strong {a : Result} (hp : p < ubMaxNodes) (hv : c.Valid)
    (he : c.Encodes m.shm) (hinit : 0 ≤ m.shm.isInited) (hhead : m.shm.queue.head < 4294967296)
    (htail : m.shm.queue.tail < 4294967296) (hr : Run (recoverBy .strong p l) m a m') :
    a = .success ∧ m'.shm.core = (left c p m.shm).core ∧ Neat p (· < ubMaxNodes) m'.shm.queue := by
  rw [recoverBy, if_neg (Nat.not_le.mpr hp)] at hr
  have hr := Run.load hr
  have hget : Shm.isInited.get m = m.shm.isInited := rfl
  rw [hget, if_neg (Int.not_lt.mpr hinit)] at hr
  obtain ⟨_, m₁, hholds, hr⟩ := Run.of_bind hr
  obtain rfl := (total_recoverHolds (steady_strong trivial) trivial hp hv he).sound hholds
  obtain ⟨_, m₂, hclean, hr⟩ := Run.of_bind hr
  obtain ⟨_, m₃, hwake, hr⟩ := Run.of_bind hr
  obtain ⟨_, m₄, hdrop, hr⟩ := Run.of_bind hr
  cases hr
  obtain rfl := (total_dropReference (steady_strong trivial) trivial).sound hdrop
  have hcore : m₃.shm.core = (c.recovered p m.shm).core :=
    (core_of_run hwake (quiet_wakeIfFree l)).trans (core_of_run hclean (quiet_cleanSlots p _))
  have hn := Keeps.of_run hwake (keeps_wakeIfFree l) _ (run_cleanAll hp hclean hhead htail)
  exact ⟨rfl, core_left hcore, hn⟩

end Whole

/-! ### What a call to `recover` leaves -/

section Results

variable {m : Mem} {p : ℕ} {l : Location} {c : Holding}

/-- `recover` gives up every hold of node `p` and no other. -/
theorem recover_removes_holds (hp : p < ubMaxNodes) (hv : c.Valid) (he : c.Encodes m.shm)
    (hinit : 0 ≤ m.shm.isInited) (hhead : m.shm.queue.head < 4294967296)
    (htail : m.shm.queue.tail < 4294967296) :
    Total (· = 0) (fun a m' => a = .success ∧ (c.without p).Encodes m'.shm) (recover p l) m ∧
    ∀ a m', Run (recoverBy .strong p l) m a m' → a = .success ∧ (c.without p).Encodes m'.shm := by
  have hleft := encodes_left he hp
  constructor
  · refine (total_recoverBy steady_weak hp hv he hinit hhead htail).mono fun a m' h => ?_
    exact ⟨h.1, encodes_of_core hleft h.2.1⟩
  · intro a m' hr
    obtain ⟨ha, hcore, -⟩ := run_recoverBy_strong hp hv he hinit hhead htail hr
    exact ⟨ha, encodes_of_core hleft hcore⟩

/-- Thread 5 of node 1 holds SX twice, nodes 0, 1 and 3 hold S. -/
def mixed : Holding := ⟨none, some (⟨5, 1⟩, 2), {0, 1, 3}⟩

def mixedMem : Mem :=
  { Mem.init with
    shm := { UbRwLock.init with
      lockWord := 32765
      lockOwnerSx := makeGlobalOwner ⟨5, 1⟩
      sxRecursive := 2
      sharedOwnerBitmap := 11#32
      isInited := 4 } }

theorem valid_mixed : mixed.Valid where
  x_node := by simp [mixed]
  sx_node := by
    intro h hh
    obtain rfl : h = (⟨5, 1⟩, 2) := by simpa [mixed] using hh.symm
    decide
  s_node := by decide
  x_alone := by simp [mixed]

theorem encodes_mixed : mixed.Encodes mixedMem.shm where
  word := by decide
  ownerX := rfl
  depthX := rfl
  ownerSx := rfl
  depthSx := rfl
  bitmap := by decide

/-- Node 1 fails: the S holds of nodes 0 and 3 are left. -/
theorem recover_removes_holds_mixed : ∃ m', Run (recover 1 ⟨7, 0⟩) mixedMem .success m' ∧
    (⟨none, none, {0, 3}⟩ : Holding).Encodes m'.shm := by
  obtain ⟨a, m', hr, rfl, he⟩ := (recover_removes_holds (p := 1) (l := ⟨7, 0⟩) (by decide) valid_mixed
    encodes_mixed (by decide) (by decide) (by decide)).1.exists_run
  have hwithout : mixed.without 1 = ⟨none, none, {0, 3}⟩ := by
    have hs : ({0, 1, 3} : Finset ℕ).erase 1 = {0, 3} := by decide
    rw [Holding.without, mixed, hs]
    rfl
  rw [hwithout] at he
  exact ⟨m', hr, he⟩

/-- The reservation of a surviving node is kept exactly if the failed process held nothing. -/
theorem reservation_kept_iff {h : Location} (hp : p < ubMaxNodes) (hv : c.Valid)
    (he : c.Encodes m.shm) (hinit : 0 ≤ m.shm.isInited) (hhead : m.shm.queue.head < 4294967296)
    (htail : m.shm.queue.tail < 4294967296) (hnode : h.nodeId.val < ubMaxNodes)
    (hreserve : m.shm.reserveLockOwner = makeGlobalOwner h) :
    (Total (· = 0) (fun _ m' => m'.shm.reserveLockOwner = m.shm.reserveLockOwner) (recover p l) m ↔
      ¬ c.On p) ∧
    ((∀ a m', Run (recoverBy .strong p l) m a m' →
      m'.shm.reserveLockOwner = m.shm.reserveLockOwner) ↔ ¬ c.On p) := by
  have hvalid : m.shm.reserveLockOwner ≠ lockInvalidOwner := by
    rw [hreserve]
    exact makeGlobalOwner_ne_invalid hnode
  have hafter : ∀ {v : UbRwLock}, v.core = (left c p m.shm).core →
      (v.reserveLockOwner = m.shm.reserveLockOwner ↔ ¬ c.On p) := by
    intro v hcore
    have hfield := congrArg UbRwLock.reserveLockOwner hcore
    have hfield : v.reserveLockOwner = (left c p m.shm).reserveLockOwner := hfield
    rw [hfield, left, Holding.recovered]
    dsimp only
    split_ifs with hon
    · exact ⟨fun h => absurd h.symm hvalid, fun h => absurd hon h⟩
    · exact ⟨fun _ => hon, fun _ => rfl⟩
  constructor
  · have htotal := total_recoverBy (l := l) steady_weak hp hv he hinit hhead htail
    constructor
    · intro h
      obtain ⟨a, m', -, hm', -, hcore, -⟩ := (h.and htotal).exists_run
      exact (hafter hcore).mp hm'
    · exact fun hon => htotal.mono fun a m' h => (hafter h.2.1).mpr hon
  · constructor
    · intro h
      have hsteady : Swap.strong.Steady (· = 0) := steady_strong (C := (· = 0)) rfl
      obtain ⟨a, m', hr, -, hcore, -⟩ :=
        (total_recoverBy (l := l) hsteady hp hv he hinit hhead htail).exists_run
      exact (hafter hcore).mp (h a m' hr)
    · exact fun hon a m' hr => (hafter (run_recoverBy_strong hp hv he hinit hhead htail hr).2.1).mpr hon

/-- Thread 5 of node 1 keeps S with a delayed release; other nodes may hold S, too. -/
def reserved (word : ℤ) (bitmap : BitVec 32) : Mem :=
  { Mem.init with
    shm := { UbRwLock.init with
      lockWord := word
      reserveLockOwner := makeGlobalOwner ⟨5, 1⟩
      sharedOwnerBitmap := bitmap
      isInited := 3 } }

theorem valid_readers {s : Finset ℕ} (h : ∀ n ∈ s, n < ubMaxNodes) :
    (⟨none, none, s⟩ : Holding).Valid :=
  ⟨by simp, by simp, h, by simp⟩

theorem encodes_reserved {word : ℤ} {bitmap : BitVec 32} {s : Finset ℕ}
    (hword : word = (⟨none, none, s⟩ : Holding).word) (hbits : Bits.ones bitmap = s) :
    (⟨none, none, s⟩ : Holding).Encodes (reserved word bitmap).shm := by
  have hx : (reserved word bitmap).shm.lockOwnerX = Holding.owner none := rfl
  have hsx : (reserved word bitmap).shm.lockOwnerSx = Holding.owner none := rfl
  exact ⟨hword, hx, rfl, hsx, rfl, hbits⟩

/-- Node 0 fails and held nothing. -/
theorem reservation_kept_bystander : ∃ m', Run (recover 0 ⟨7, 2⟩) (reserved 65535 2#32) .success m' ∧
    m'.shm.reserveLockOwner = makeGlobalOwner ⟨5, 1⟩ := by
  have hv : (⟨none, none, {1}⟩ : Holding).Valid := valid_readers (by decide)
  have he : (⟨none, none, {1}⟩ : Holding).Encodes (reserved 65535 2#32).shm :=
    encodes_reserved (by decide) (by decide)
  have hkept := (reservation_kept_iff (p := 0) (l := ⟨7, 2⟩) (h := ⟨5, 1⟩) (by decide) hv he (by decide)
    (by decide) (by decide) (by decide) rfl).1.mpr (by simp [Holding.On])
  have hdone := total_recoverBy (p := 0) (l := ⟨7, 2⟩) steady_weak (by decide) hv he (by decide)
    (by decide) (by decide)
  obtain ⟨a, m', hr, hm', rfl, -⟩ := (hkept.and hdone).exists_run
  exact ⟨m', hr, hm'⟩

/-- Node 0 fails and held S: the reservation of node 1 is gone, its hold is not. -/
theorem reservation_lost : ∃ m', Run (recover 0 ⟨7, 2⟩) (reserved 65534 3#32) .success m' ∧
    m'.shm.reserveLockOwner = lockInvalidOwner ∧ m'.shm.lockWord = 65535 ∧
    m'.shm.sharedOwnerBitmap = 2#32 := by
  have hexec : ((recover 0 ⟨7, 2⟩).exec 400 (reserved 65534 3#32)).any (fun o => o.1 = .success ∧
      o.2.shm.reserveLockOwner = lockInvalidOwner ∧ o.2.shm.lockWord = 65535 ∧
      o.2.shm.sharedOwnerBitmap = 2#32) = true := by
    decide +kernel
  obtain ⟨⟨a, m'⟩, hr, hm'⟩ := (Option.any_eq_true _ _).mp hexec
  obtain ⟨rfl, hm'⟩ : a = .success ∧ _ := of_decide_eq_true hm'
  exact ⟨m', run_of_exec hr, hm'⟩

end Results

end Recover

end UbsAtomic
