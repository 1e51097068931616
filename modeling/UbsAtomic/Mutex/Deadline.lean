import UbsAtomic.Conc.Sequential
import UbsAtomic.Mutex.MutexLock

/-! The deadline of `MutexLock::lock`, on 64 bits.

        timeout_ms : uint64 ──▶ milliseconds : int64 ──▶ · 10^6 ──▶ + now ──▶ deadline : int64

    Both loops are entered only while `now <= deadline`. A free mutex is taken in the first round of
    each, so that `lock` fails exactly when the sum has wrapped around to a time in the past. -/

namespace UbsAtomic

open Conc Conc.Prog

namespace Mutex

/-! ### The sum -/

/-- The deadline is not in the past unless the sum leaves the range of `int64_t`. -/
theorem le_deadlineAfter_iff {now : ℤ} {t : ℕ} (hlow : -9223372036854775808 ≤ now)
    (hhigh : now < 9223372036854775808) :
    now ≤ deadlineAfter now t ↔
      now + (1000000 * t) % 18446744073709551616 < 9223372036854775808 := by
  have hsum : deadlineAfter now t = (now + 1000000 * t).bmod 18446744073709551616 := by
    rw [deadlineAfter, i64, i64, i64, Int.mul_bmod_bmod, Int.add_bmod_bmod]
  rw [hsum, Int.bmod_def]
  split <;> omega

/-! ### A free mutex -/

/-- The timeout that `lock` works with. -/
def effectiveTimeout (timeoutMs : ℕ) : ℕ :=
  if timeoutMs = 0 then defaultMutexTimeoutMs else timeoutMs

/-- The mutex has been created, local lock `g` of the caller's node is registered, nobody holds
    either of the two and nobody waits. -/
structure Free (s : Mem) (l : Location) (g : ℕ) : Prop where
  node : l.nodeId.val < ubMaxNodes
  ready : s.shm.isInited = mutexReady
  registered : s.registry l.nodeId = some g
  still : s.removing l.nodeId = false
  owner : s.shm.lockOwner = lockInvalidOwner
  localOwner : (s.locals l.nodeId g).owner = lockInvalidOwner
  noWaiters : s.shm.queue.count = 0
  noLocalWaiters : (s.locals l.nodeId g).queue.count = 0

section Free

variable {s : Mem} {l : Location} {g : ℕ} {deadline : ℤ}

/-- The caller counts as a user of the local lock; it is as free as before. -/
theorem Free.counted (h : Free s l g) (k : ℕ) :
    Free ((Local.activeUsers l.nodeId g).set k s) l g where
  node := h.node
  ready := h.ready
  registered := h.registered
  still := h.still
  owner := h.owner
  localOwner := by simpa [Local.activeUsers, Local.field] using h.localOwner
  noWaiters := h.noWaiters
  noLocalWaiters := by simpa [Local.activeUsers, Local.field] using h.noLocalWaiters

theorem Free.ne_owner (h : Free s l g) {owner : ℕ} (ho : owner = lockInvalidOwner) :
    ¬ owner = makeGlobalOwner l :=
  fun he => makeGlobalOwner_ne_invalid h.node (he.symm.trans ho)

/-! ### One round of each loop -/

theorem total_usable (h : Free s l g) :
    Total (· = 0) (fun ok s' => ok = true ∧ s' = s) (usable l) s := by
  rw [usable, if_neg (Nat.not_le.mpr h.node)]
  refine .bind (total_load rfl (.ret ⟨?_, rfl⟩))
  exact decide_eq_true h.ready

theorem total_acquireMutexLocalLock (h : Free s l g) :
    Total (· = 0) (fun r s' => r = some g ∧ ∃ k, s' = (Local.activeUsers l.nodeId g).set k s)
      (acquireMutexLocalLock l) s := by
  refine .act ⟨0, rfl, ?_⟩ fun c s' b _ hf => ?_
  · simp only [h.still, h.registered]
    rfl
  · simp only [h.still, h.registered] at hf
    cases hf
    exact .ret ⟨rfl, _, rfl⟩

/-- In time, a free local lock is taken in the first round. -/
theorem total_lockMutexLocal (h : Free s l g) (hnow : s.clock ≤ deadline) :
    Total (· = 0) (fun r s' => r = .success ∧
      s' = (Local.owner l.nodeId g).set (makeGlobalOwner l) s) (lockMutexLocal l g deadline) s := by
  refine total_loop (.bind (.bind (total_load rfl (.ret ?_))))
  have htrue : decide (clockAt.get s ≤ deadline) = true := decide_eq_true hnow
  rw [htrue, if_neg (by decide)]
  refine .bind (total_loop ?_)
  rw [if_neg (by decide)]
  refine .bind (total_load rfl ?_)
  have hcount : (localQueue l.nodeId g).count.get s = 0 := h.noLocalWaiters
  rw [hcount, if_neg (by decide)]
  refine .bind (.bind (total_casWeak (fun _ => ?_) fun hne => absurd h.localOwner hne))
  exact .ret (.ret (.ret ⟨rfl, rfl⟩))

/-- Late, nothing is tried. -/
theorem total_lockMutexLocal_late (hnow : ¬ s.clock ≤ deadline) :
    Total (· = 0) (fun r s' => r = .timeout ∧ s' = s) (lockMutexLocal l g deadline) s := by
  refine total_loop (.bind (.bind (total_load rfl (.ret ?_))))
  have hfalse : decide (clockAt.get s ≤ deadline) = false := decide_eq_false hnow
  rw [hfalse, if_pos (by decide)]
  exact .ret ⟨rfl, rfl⟩

/-- In time, a free global owner word is taken in the first round. -/
theorem total_acquireGlobal (hnode : l.nodeId.val < ubMaxNodes)
    (hfree : s.shm.lockOwner = lockInvalidOwner) (hnone : s.shm.queue.count = 0)
    (hnow : s.clock ≤ deadline) :
    Total (· = 0) (fun r _ => r = .success) (acquireGlobal l deadline) s := by
  have hne : ¬ Shm.lockOwner.get s = makeGlobalOwner l := fun he =>
    makeGlobalOwner_ne_invalid hnode (he.symm.trans hfree)
  refine .bind (.bind (total_load rfl (.ret ?_)))
  rw [if_neg hne, if_neg (by decide)]
  refine total_loop (.bind (.bind (total_load rfl (.ret ?_))))
  have htrue : decide (clockAt.get s ≤ deadline) = true := decide_eq_true hnow
  rw [htrue, if_neg (by decide)]
  refine .bind (.bind (total_load rfl ?_))
  have hcount : sharedQueue.count.get s = 0 := hnone
  rw [hcount, if_neg (by decide)]
  refine .bind (total_casWeak (fun _ => ?_) fun hne => absurd hfree hne)
  exact .ret (.ret rfl)

end Free

/-! ### The call -/

/-- A free mutex is locked exactly if the deadline, computed on 64 bits, is not in the past. -/
theorem lock_free_iff (s : Mem) (l : Location) (g timeoutMs : ℕ) (hfree : Free s l g)
    (hlow : -9223372036854775808 ≤ s.clock) (hhigh : s.clock < 9223372036854775808) :
    Total (· = 0) (fun r _ => r = .success ↔
        s.clock + (1000000 * effectiveTimeout timeoutMs) % 18446744073709551616 <
          9223372036854775808)
      (lock timeoutMs l) s := by
  rw [← le_deadlineAfter_iff hlow hhigh]
  refine .bind ((total_usable hfree).mono ?_)
  rintro _ s ⟨rfl, rfl⟩
  rw [if_neg (by decide)]
  refine .bind (total_load rfl ?_)
  have hne : ¬ Shm.lockOwner.get _ = makeGlobalOwner l := hfree.ne_owner hfree.owner
  rw [if_neg hne]
  refine .bind ((total_acquireMutexLocalLock hfree).mono ?_)
  rintro _ _ ⟨rfl, k, rfl⟩
  have hcounted := hfree.counted k
  refine .bind (total_load rfl (.bind (total_load rfl ?_)))
  have hne' : ¬ (Local.owner l.nodeId g).get _ = makeGlobalOwner l :=
    hfree.ne_owner hcounted.localOwner
  rw [if_neg hne']
  by_cases hnow : s.clock ≤ deadlineAfter s.clock (effectiveTimeout timeoutMs)
  · refine .bind ((total_lockMutexLocal hcounted hnow).mono ?_)
    rintro _ _ ⟨rfl, rfl⟩
    rw [if_neg (by decide)]
    have hglobal := total_acquireGlobal (s := (Local.owner l.nodeId g).set (makeGlobalOwner l)
      ((Local.activeUsers l.nodeId g).set k s)) hfree.node hfree.owner hfree.noWaiters hnow
    refine .bind (hglobal.mono ?_)
    rintro _ s₁ rfl
    exact .bind (.bind (total_rmw rfl (.ret (.ret (iff_of_true rfl hnow)))))
  · have hlate := total_lockMutexLocal_late (s := (Local.activeUsers l.nodeId g).set k s) (l := l)
      (g := g) hnow
    refine .bind (hlate.mono ?_)
    rintro _ _ ⟨rfl, rfl⟩
    rw [if_pos (by decide)]
    exact .bind (.bind (total_rmw rfl (.ret (.ret (iff_of_false (by decide) hnow)))))

theorem free_init (answers : ℕ → Sent) : Free (.init answers) ⟨1, 0⟩ 0 where
  node := by decide
  ready := rfl
  registered := rfl
  still := rfl
  owner := rfl
  localOwner := rfl
  noWaiters := rfl
  noLocalWaiters := rfl

theorem lock_free_iff_minute :
    Total (· = 0) (fun r _ => r = .success) (lock 60000 ⟨1, 0⟩) (.init fun _ => .taken) :=
  (lock_free_iff _ ⟨1, 0⟩ 0 60000 (free_init _) (by decide) (by decide)).mono
    fun _ _ h => h.mpr (by decide)

/-- With the largest timeout there is, one millisecond less than no time is left. -/
theorem lock_free_timeout :
    Free (.init fun _ => .taken) ⟨1, 0⟩ 0 ∧
      ((lock 1 ⟨1, 0⟩).exec 100 (.init fun _ => .taken)).map Prod.fst = some .success ∧
      ((lock 18446744073709551615 ⟨1, 0⟩).exec 100 (.init fun _ => .taken)).map Prod.fst =
        some .timeout :=
  ⟨free_init _, by decide +kernel, by decide +kernel⟩

end Mutex

end UbsAtomic
