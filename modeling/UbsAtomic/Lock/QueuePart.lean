import UbsAtomic.Conc.Part
import UbsAtomic.Lock.QueueCalls

/-! The operations of a wait queue that lives somewhere in a memory are those of a queue of its own,
    done in place: what is known of `WaitQueue.queue` holds of every `QueueRef`. -/

namespace UbsAtomic

open Conc Conc.Prog

namespace QueueRef

variable {σ ε π : Type} (q : QueueRef σ ε π)

/-- The same queue with nothing around it. -/
abbrev bare : QueueRef (RingQueue π) QLabel π := WaitQueue.queue q.cap q.reset q.modeOf

variable {q}

theorem on_tryDecCount (hq : q.ref.Lawful) : On q.ref q.tryDecCount q.bare.tryDecCount := by
  refine .bind (.load hq) fun cur => .loop (fun cur => .ite (.ret _) ?_) cur
  exact .bind (.casWeak hq) fun r => .ret _

theorem on_advanceDeadHead (hq : q.ref.Lawful) :
    On q.ref q.advanceDeadHead q.bare.advanceDeadHead := by
  refine .loop (fun _ => .bind (.load hq) fun h => .bind (.load hq) fun t => .ite (.ret _) ?_) ()
  refine .bind (.load hq) fun seqv => .ite ?_ (.ret _)
  exact .bind (.casWeak hq) fun r => .ret _

theorem on_popHead (hq : q.ref.Lawful) (n : ℕ) : On q.ref (q.popHead n) (q.bare.popHead n) :=
  .bind .store fun _ => .bind .store fun _ => .bind .rmw fun _ => on_tryDecCount hq

end QueueRef

/-! ### Cleaning the head -/

namespace WaitQueue

section Bare

variable {π : Type} {cap a b n : ℕ} {reset : π} {modeOf : π → Mode} {r : RingQueue π} {live : Finset ℕ}

/-- It comes to an end with the window. -/
theorem advanceDeadHead_returns (hcap : Sized cap) (h : Rep cap r a b live) :
    Total (· = 0) (fun _ _ => True) (queue cap reset modeOf).advanceDeadHead r := by
  induction hd : b - a generalizing a r with
  | zero =>
    have hle := h.le
    obtain rfl : a = b := by omega
    refine total_loop (.bind (total_load rfl ?_))
    refine .bind (total_load rfl ?_)
    have hend : (queue cap reset modeOf).head.get r = (queue cap reset modeOf).tail.get r :=
      h.head.trans h.tail.symm
    rw [if_pos hend]
    exact .ret trivial
  | succ d ih =>
    refine .iter (.bind (.bind (total_load rfl ?_)))
    refine .bind (total_load rfl ?_)
    split
    · exact .ret (.ret trivial)
    refine .bind (total_load rfl ?_)
    split
    · rename_i hne hdead
      have hdead : (r.slots (r.head % cap)).seq = .timeout := hdead
      rw [h.index_head hcap] at hdead
      have hnext := h.skip (h.lt_of_ne hne) (h.notMem_of_timeout hdead)
      rw [← u32_succ, ← h.head] at hnext
      exact .bind (total_casWeak (fun _ => .ret (ih hnext (by omega))) fun hne => absurd rfl hne)
    · exact .ret (.ret trivial)

theorem popHead_returns (reset : π) (modeOf : π → Mode) (n : ℕ) :
    Total (· = 0) (fun _ _ => True) ((queue cap reset modeOf).popHead n) r := by
  refine .bind (total_store rfl ?_)
  refine .bind (total_store rfl ?_)
  refine .bind (total_rmw rfl ?_)
  refine .bind (total_load rfl (total_loop ?_))
  split
  · exact .ret trivial
  · exact .bind (total_casWeak (fun _ => .ret trivial) fun hne => absurd rfl hne)

/-- The queue after `pop_head` of ticket `n`. -/
def popped (cap : ℕ) (reset : π) (n : ℕ) (r : RingQueue π) : RingQueue π :=
  { r with
    slots := Function.update r.slots (n % cap) ⟨.empty, reset⟩
    head := u32 (r.head + 1)
    count := r.count - 1 }

end Bare

end WaitQueue

/-! ### In place -/

namespace QueueRef

section InPlace

variable {σ ε π : Type} {q : QueueRef σ ε π} {s s' : σ} {a b : ℕ} {live : Finset ℕ}

theorem run_advanceDeadHead (hq : q.ref.Lawful) (hcap : WaitQueue.Sized q.cap)
    (h : WaitQueue.Rep q.cap (q.ref.get s) a b live) (hr : Run q.advanceDeadHead s () s') :
    ∃ r', WaitQueue.Cleaned q.cap (q.ref.get s) a b live r' ∧ s' = q.ref.set r' s := by
  obtain ⟨r', hr', hs'⟩ := (on_advanceDeadHead hq).run hq hr
  exact ⟨r', hr'.sound (WaitQueue.ends_advanceDeadHead hcap h), hs'⟩

theorem run_popHead (hq : q.ref.Lawful) {n : ℕ} (hr : Run (q.popHead n) s () s') :
    s' = q.ref.set (WaitQueue.popped q.cap q.reset n (q.ref.get s)) s := by
  obtain ⟨r', hr', hs'⟩ := (on_popHead hq n).run hq hr
  have h : r' = _ := hr'.sound WaitQueue.ends_popHead
  rw [hs', h]
  rfl

theorem total_advanceDeadHead (hq : q.ref.Lawful) (hcap : WaitQueue.Sized q.cap)
    (h : WaitQueue.Rep q.cap (q.ref.get s) a b live) :
    Total (· = 0) (fun _ _ => True) q.advanceDeadHead s :=
  ((on_advanceDeadHead hq).total hq (WaitQueue.advanceDeadHead_returns hcap h) s rfl).mono
    fun _ _ _ => trivial

theorem total_popHead (hq : q.ref.Lawful) (n : ℕ) :
    Total (· = 0) (fun _ _ => True) (q.popHead n) s :=
  ((on_popHead hq n).total hq (WaitQueue.popHead_returns q.reset q.modeOf n) s rfl).mono
    fun _ _ _ => trivial

end InPlace

end QueueRef

end UbsAtomic
