import UbsAtomic.Lock.Footprint

/-! Who calls the lock.

    Application threads, one per location, call the six lock and unlock functions; message threads,
    any number per node, each take the next message for their node and handle it. What a thread
    holds is counted per mode: a lock call that returned SUCCESS adds one, and a hold is gone as
    soon as its unlock call begins.

        app ⟨tid, node⟩    lock_s lock_sx lock_x unlock_s unlock_sx unlock_x
        handler node k     message_process_thread_func -/

namespace UbsAtomic

open Conc Conc.Prog

inductive Actor where
  | app (l : Location)
  | handler (n : NodeId) (k : ℕ)
  deriving DecidableEq

inductive Op where
  | lockS
  | lockSx (p : Policy)
  | lockX (p : Policy)
  | unlockS (p : Policy)
  | unlockSx (p : Policy)
  | unlockX (p : Policy)
  | handle
  deriving DecidableEq

/-- How many holds of each mode a thread has. -/
structure Holds where
  s : ℕ
  sx : ℕ
  x : ℕ
  deriving DecidableEq

namespace Holds

def none : Holds := ⟨0, 0, 0⟩

/-- An unlock call begins. -/
def start (h : Holds) : Op → Holds
  | .unlockS _ => { h with s := h.s - 1 }
  | .unlockSx _ => { h with sx := h.sx - 1 }
  | .unlockX _ => { h with x := h.x - 1 }
  | _ => h

theorem start_le (h : Holds) (op : Op) :
    (h.start op).s ≤ h.s ∧ (h.start op).sx ≤ h.sx ∧ (h.start op).x ≤ h.x := by
  cases op <;> simp [start]

/-- A lock call returns. -/
def finish (h : Holds) : Op → Result → Holds
  | .lockS, .success => { h with s := h.s + 1 }
  | .lockSx _, .success => { h with sx := h.sx + 1 }
  | .lockX _, .success => { h with x := h.x + 1 }
  | _, _ => h

/-- Only what is held may be unlocked. -/
def owns (h : Holds) : Op → Bool
  | .unlockS _ => h.s > 0
  | .unlockSx _ => h.sx > 0
  | .unlockX _ => h.x > 0
  | _ => true

end Holds

/-- The program behind a call. -/
def callCode : Actor → Op → Call Result
  | .app l, .lockS => lockS l
  | .app l, .lockSx p => lockSx p l
  | .app l, .lockX p => lockX p l
  | .app l, .unlockS p => unlockS p l
  | .app l, .unlockSx p => unlockSx p l
  | .app l, .unlockX p => unlockX p l
  | .handler n _, .handle => do
    messageProcess n
    return .success
  | _, _ => return .error

abbrev LockClient := Client Actor Mem Label Op Result Holds

abbrev LockConfig := Config Actor Mem Label Op Result Holds

/-- Threads with a non-zero id on the nodes of the lock, making the calls `rule` lets them make and
    unlocking only what they hold; message threads on every node. -/
def lockClient (rule : Holds → Op → Bool) : LockClient where
  code := callCode
  allowed
    | .app l, h, op => l.tid ≠ 0 && l.nodeId.val < ubMaxNodes && op ≠ .handle && h.owns op && rule h op
    | .handler n _, _, op => n.val < ubMaxNodes && op = .handle
  start := Holds.start
  finish := Holds.finish

/-- A fresh lock and idle threads. -/
def LockConfig.init : LockConfig := ⟨Mem.init, fun _ => .none, fun _ => none⟩

/-- `recursive = false`, `allow_delay_release = false`. -/
def Policy.base : Policy := ⟨false, false⟩

/-! ### Identities -/

/-- `v` is the identity of a thread of node `n`. -/
def OnNode (n : NodeId) (v : ℕ) : Prop := n.val < ubMaxNodes ∧ ∃ t, v = makeGlobalOwner ⟨t, n⟩

/-- `v` is the identity of a thread of some node. -/
def Named (v : ℕ) : Prop := ∃ n, OnNode n v

theorem OnNode.ne_invalid {n : NodeId} {v : ℕ} (h : OnNode n v) : v ≠ lockInvalidOwner := by
  obtain ⟨hn, t, rfl⟩ := h
  exact makeGlobalOwner_ne_invalid hn

theorem Named.ne_invalid {v : ℕ} (h : Named v) : v ≠ lockInvalidOwner := h.elim fun _ => OnNode.ne_invalid

theorem onNode_self {l : Location} (hn : l.nodeId.val < ubMaxNodes) :
    OnNode l.nodeId (makeGlobalOwner l) :=
  ⟨hn, l.tid, rfl⟩

theorem OnNode.eq {n : NodeId} {l : Location} (h : OnNode n (makeGlobalOwner l)) : n = l.nodeId := by
  obtain ⟨-, t, ht⟩ := h
  rw [makeGlobalOwner_injective ht]

/-- The node number a reservation is read as. -/
theorem OnNode.decode {n : NodeId} {v : ℕ} (h : OnNode n v) : v / 4294967296 % 256 = n.val := by
  obtain ⟨-, t, rfl⟩ := h
  have := t.isLt
  have := n.isLt
  simp only [makeGlobalOwner]
  omega

/-! ### Sums over the threads -/

section Sums

variable {G : Type}

/-- Sum over the application threads that satisfy `p`. -/
def sumOver (p : Location → Prop) [DecidablePred p] (f : G → ℤ) (γ : Actor → G) : ℤ :=
  ∑ l : Location, if p l then f (γ (.app l)) else 0

/-- Sum over all application threads. -/
def total (f : G → ℤ) (γ : Actor → G) : ℤ := sumOver (fun _ => True) f γ

/-- Sum over the threads of node `n`. -/
def onNode (n : NodeId) (f : G → ℤ) (γ : Actor → G) : ℤ := sumOver (·.nodeId = n) f γ

/-- Sum over the threads of node `n` that use lane `i`. -/
def onLane (n : NodeId) (i : Fin 4) (f : G → ℤ) (γ : Actor → G) : ℤ :=
  sumOver (fun l => l.nodeId = n ∧ laneForTid l.tid = i) f γ

theorem sumOver_update (p : Location → Prop) [DecidablePred p] (f : G → ℤ) (γ : Actor → G)
    (l : Location) (g : G) :
    sumOver p f (Function.update γ (.app l) g)
      = sumOver p f γ + if p l then f g - f (γ (.app l)) else 0 := by
  have h : ∀ l', (if p l' then f (Function.update γ (.app l) g (.app l')) else 0)
      = (if p l' then f (γ (.app l')) else 0)
        + if l' = l then (if p l then f g - f (γ (.app l)) else 0) else 0 := fun l' => by
    by_cases hl : l' = l
    · subst hl
      by_cases hn : p l' <;> simp [hn]
    · simp [hl]
  simp only [sumOver, h, Finset.sum_add_distrib, Finset.sum_ite_eq', Finset.mem_univ, if_true]

theorem total_update (f : G → ℤ) (γ : Actor → G) (l : Location) (g : G) :
    total f (Function.update γ (.app l) g) = total f γ + (f g - f (γ (.app l))) := by
  simp [total, sumOver_update]

theorem onNode_update (n : NodeId) (f : G → ℤ) (γ : Actor → G) (l : Location) (g : G) :
    onNode n f (Function.update γ (.app l) g)
      = onNode n f γ + if l.nodeId = n then f g - f (γ (.app l)) else 0 :=
  sumOver_update _ f γ l g

theorem onLane_update (n : NodeId) (i : Fin 4) (f : G → ℤ) (γ : Actor → G) (l : Location) (g : G) :
    onLane n i f (Function.update γ (.app l) g)
      = onLane n i f γ + if l.nodeId = n ∧ laneForTid l.tid = i then f g - f (γ (.app l)) else 0 :=
  sumOver_update _ f γ l g

theorem sumOver_add (p : Location → Prop) [DecidablePred p] (f f' : G → ℤ) (γ : Actor → G) :
    sumOver p (fun g => f g + f' g) γ = sumOver p f γ + sumOver p f' γ := by
  simp only [sumOver, ← Finset.sum_add_distrib]
  refine Finset.sum_congr rfl fun l _ => ?_
  split
  · rfl
  · simp

theorem sumOver_congr {G' : Type} {p : Location → Prop} [DecidablePred p] {f : G → ℤ} {f' : G' → ℤ}
    {γ : Actor → G} {γ' : Actor → G'} (h : ∀ l, f (γ (.app l)) = f' (γ' (.app l))) :
    sumOver p f γ = sumOver p f' γ' := by
  simp only [sumOver, h]

theorem sumOver_eq_zero {p : Location → Prop} [DecidablePred p] {f : G → ℤ} {γ : Actor → G}
    (h : ∀ l, p l → f (γ (.app l)) = 0) : sumOver p f γ = 0 := by
  refine Finset.sum_eq_zero fun l _ => ?_
  split
  · exact h l ‹_›
  · rfl

/-- The message threads are in no sum. -/
theorem sumOver_handler (p : Location → Prop) [DecidablePred p] (f : G → ℤ) (γ : Actor → G)
    (n : NodeId) (k : ℕ) (g : G) :
    sumOver p f (Function.update γ (.handler n k) g) = sumOver p f γ := by
  simp [sumOver]

theorem total_eq_sum_onNode (f : G → ℤ) (γ : Actor → G) : total f γ = ∑ n, onNode n f γ := by
  simp only [total, onNode, sumOver]
  rw [Finset.sum_comm]
  simp

theorem onNode_eq_sum_onLane (n : NodeId) (f : G → ℤ) (γ : Actor → G) :
    onNode n f γ = ∑ i, onLane n i f γ := by
  simp only [onNode, onLane, sumOver, ite_and]
  rw [Finset.sum_comm]
  simp

theorem le_sum_of_nonneg {ι : Type} [Fintype ι] {f : ι → ℤ} (hf : ∀ i, 0 ≤ f i) (i : ι) :
    f i ≤ ∑ j, f j :=
  Finset.single_le_sum (fun j _ => hf j) (Finset.mem_univ i)

theorem add_le_sum_of_nonneg {ι : Type} [Fintype ι] [DecidableEq ι] {f : ι → ℤ}
    (hf : ∀ i, 0 ≤ f i) {i j : ι} (h : i ≠ j) : f i + f j ≤ ∑ k, f k := by
  rw [← Finset.sum_pair h]
  exact Finset.sum_le_sum_of_subset_of_nonneg (Finset.subset_univ _) fun k _ _ => hf k

/-- A sum that changes in one place. -/
theorem sum_change {ι : Type} [Fintype ι] [DecidableEq ι] {f g : ι → ℤ} (i : ι)
    (h : ∀ j, j ≠ i → g j = f j) : ∑ j, g j = ∑ j, f j + (g i - f i) := by
  have hall : ∀ j, g j = f j + if j = i then g i - f i else 0 := by
    intro j
    by_cases hj : j = i
    · subst hj
      simp
    · simp [hj, h j hj]
  rw [Finset.sum_congr rfl fun j _ => hall j, Finset.sum_add_distrib]
  simp

variable {f : G → ℤ} {γ : Actor → G}

theorem sumOver_nonneg {p : Location → Prop} [DecidablePred p] (hf : ∀ g, 0 ≤ f g) :
    0 ≤ sumOver p f γ :=
  Finset.sum_nonneg fun l _ => by
    split
    · exact hf _
    · exact le_refl 0

/-- One thread is part of the sum. -/
theorem le_sumOver {p : Location → Prop} [DecidablePred p] (hf : ∀ g, 0 ≤ f g) {l : Location}
    (hl : p l) : f (γ (.app l)) ≤ sumOver p f γ := by
  have hle : ∀ l' : Location, 0 ≤ if p l' then f (γ (.app l')) else 0 := fun l' => by
    split
    · exact hf _
    · exact le_refl 0
  simpa [sumOver, hl] using le_sum_of_nonneg hle l

/-- A sum is positive if one of its threads is. -/
theorem sumOver_pos_iff {p : Location → Prop} [DecidablePred p] (hf : ∀ g, 0 ≤ f g) :
    0 < sumOver p f γ ↔ ∃ l, p l ∧ 0 < f (γ (.app l)) := by
  constructor
  · intro hpos
    by_contra hno
    push Not at hno
    have hzero : sumOver p f γ = 0 :=
      sumOver_eq_zero fun l hl => le_antisymm (hno l hl) (hf _)
    omega
  · rintro ⟨l, hl, hpos⟩
    exact lt_of_lt_of_le hpos (le_sumOver hf hl)

/-- Two threads are part of the sum. -/
theorem add_le_sumOver {p : Location → Prop} [DecidablePred p] (hf : ∀ g, 0 ≤ f g)
    {l l' : Location} (h : l ≠ l') (hl : p l) (hl' : p l') :
    f (γ (.app l)) + f (γ (.app l')) ≤ sumOver p f γ := by
  have hle : ∀ l' : Location, 0 ≤ if p l' then f (γ (.app l')) else 0 := fun l' => by
    split
    · exact hf _
    · exact le_refl 0
  simpa [sumOver, hl, hl'] using add_le_sum_of_nonneg hle h

theorem sumOver_mono {p : Location → Prop} [DecidablePred p] {f' : G → ℤ}
    (hf : ∀ g, f g ≤ f' g) : sumOver p f γ ≤ sumOver p f' γ :=
  Finset.sum_le_sum fun l _ => by
    split
    · exact hf _
    · exact le_refl 0

theorem onNode_nonneg (hf : ∀ g, 0 ≤ f g) (n : NodeId) : 0 ≤ onNode n f γ := sumOver_nonneg hf

theorem le_onNode (hf : ∀ g, 0 ≤ f g) (l : Location) : f (γ (.app l)) ≤ onNode l.nodeId f γ :=
  le_sumOver hf rfl

theorem onLane_nonneg (hf : ∀ g, 0 ≤ f g) (n : NodeId) (i : Fin 4) : 0 ≤ onLane n i f γ :=
  sumOver_nonneg hf

theorem le_onLane (hf : ∀ g, 0 ≤ f g) (l : Location) :
    f (γ (.app l)) ≤ onLane l.nodeId (laneForTid l.tid) f γ :=
  le_sumOver hf ⟨rfl, rfl⟩

theorem total_nonneg (hf : ∀ g, 0 ≤ f g) : 0 ≤ total f γ := sumOver_nonneg hf

theorem le_total (hf : ∀ g, 0 ≤ f g) (l : Location) : f (γ (.app l)) ≤ total f γ :=
  le_sumOver hf trivial

theorem onNode_le_total (hf : ∀ g, 0 ≤ f g) (n : NodeId) : onNode n f γ ≤ total f γ := by
  rw [total_eq_sum_onNode]
  exact le_sum_of_nonneg (fun i => onNode_nonneg hf i) n

theorem add_le_total (hf : ∀ g, 0 ≤ f g) {l l' : Location} (h : l ≠ l') :
    f (γ (.app l)) + f (γ (.app l')) ≤ total f γ :=
  add_le_sumOver hf h trivial trivial

end Sums

end UbsAtomic
