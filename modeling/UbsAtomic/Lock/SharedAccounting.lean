import UbsAtomic.Lock.Client

/-! Exact accounting of S and X: leaders, followers and the unit of a node.

    Only S and X are used here, so a node is either inside S calls or inside one X call. A thread
    is at one of these points; the counters of its node say how many threads are at which.

        lock_s     out ─▶ inside ─▶ leads ─▶ unit ─▶ published ─▶ announced ─▶ hold
                            │ follower          └▶ failed ─▶ inside
                            └─▶ hold
        unlock_s   hold ─▶ inside                          (others hold)
                   hold ─▶ owing ─▶ paid ─▶ cleared ─▶ inside   (the last one)
        lock_x     out ─▶ xWord ─▶ xLocal ─▶ xUnit ─▶ hold
        unlock_x   hold ─▶ xFree ─▶ xLocal ─▶ xWord ─▶ out

    A leader that gives up writes IDLE and then 0 over the reference count. Between the two writes
    the next leader may have come through; the accounting is exact as long as that second write
    finds the count at 0. -/

namespace UbsAtomic

open Conc Conc.Prog

namespace SharedAccounting

inductive Phase where
  | out | inside | leads | unit | published | announced | failed
  | owing | paid | cleared
  | xWord | xLocal | xUnit | xFree
  deriving DecidableEq

/-- Complete holds, the units taken less those given back, and the point in the current call. -/
structure Ghost where
  s : ℕ
  x : ℕ
  unit : ℤ
  ph : Phase

/-! ### What a thread counts for -/

/-- Reader of the local lock. -/
def lanes (g : Ghost) : ℤ :=
  g.s + match g.ph with
    | .inside | .leads | .unit | .published | .announced | .failed | .owing | .paid | .cleared => 1
    | _ => 0

/-- Exclusive in the local lock. -/
def xLocals (g : Ghost) : ℤ :=
  g.x + match g.ph with
    | .xWord | .xLocal | .xUnit | .xFree => 1
    | _ => 0

/-- Exclusive in `lock_word`. -/
def xUnits (g : Ghost) : ℤ :=
  g.x + match g.ph with
    | .xUnit | .xFree => 1
    | _ => 0

/-- `lock_x_owner_` names the thread. -/
def Ghost.named (g : Ghost) : Prop :=
  0 < g.x ∨ g.ph = .xLocal ∨ g.ph = .xUnit ∨ g.ph = .xFree

inductive Count where
  | ref | full | lead | pub | rel | loose | fresh | stale

/-- How a thread enters the counters of its node. -/
def weight : Count → Ghost → ℤ
  | .ref, g => g.s + match g.ph with | .published | .announced => 1 | _ => 0
  | .full, g => g.s
  | .lead, g => match g.ph with | .leads | .unit => 1 | _ => 0
  | .pub, g => match g.ph with | .published => 1 | _ => 0
  | .rel, g => match g.ph with | .owing | .paid | .cleared => 1 | _ => 0
  | .loose, g => match g.ph with | .unit | .owing => 1 | _ => 0
  | .fresh, g => match g.ph with | .published | .announced => 1 | _ => 0
  | .stale, g => match g.ph with | .owing | .paid => 1 | _ => 0

/-! ### The invariant -/

/-- The counters of one node against its reference count, its state, its unit and its bit. -/
structure NodeOk (k : LocalLock) (bit : Bool) (u : ℤ) (c : Count → ℤ) : Prop where
  ref : k.globalReadRefCount = c .ref
  idle : k.globalState = .idle → c .ref = 0 ∧ c .lead = 0 ∧ c .pub = 0 ∧ c .rel = 0
  pending : k.globalState = .pending → c .rel = 0 ∧
    (c .ref = 0 ∧ c .lead = 1 ∧ c .pub = 0 ∨ 1 ≤ c .ref ∧ c .lead = 0 ∧ c .pub = 1)
  held : k.globalState = .held → c .lead = 0 ∧ c .pub = 0 ∧
    (c .ref = 0 ∧ c .rel = 1 ∨ 1 ≤ c .ref ∧ c .rel = 0)
  unit : u = c .loose + min (c .ref) 1
  bit : (if bit then 1 else 0) + c .fresh = c .stale + min (c .ref) 1

/-- The local lock word of one node: free for readers, or all X. -/
def LocalOk (k : LocalLock) (x : ℤ) (lane : Fin 4 → ℤ) : Prop :=
  (x = 0 ∧ ∀ i, k.lockWord i = ⟨(lane i).toNat, false, false⟩) ∨
    (x = 1 ∧ k.lockWord = .xState ∧ ∀ i, lane i = 0)

structure Glob (s : Mem) (γ : Actor → Ghost) : Prop where
  word : s.shm.lockWord = xLockDecr - xLockDecr * total xUnits γ - total (·.unit) γ
  nonneg : 0 ≤ s.shm.lockWord
  owner : ∀ l, 0 < (γ (.app l)).x → s.shm.lockOwnerX = makeGlobalOwner l

structure Loc (s : Mem) (γ : Actor → Ghost) : Prop where
  word : ∀ n, LocalOk (s.ll n) (onNode n xLocals γ) fun i => onLane n i lanes γ
  owner : ∀ l, (γ (.app l)).named → (s.ll l.nodeId).lockXOwner = l.tid

def Nodes (s : Mem) (γ : Actor → Ghost) : Prop :=
  ∀ n, NodeOk (s.ll n) (s.shm.sharedOwnerBitmap.getLsbD n.val) (onNode n (·.unit) γ)
    fun c => onNode n (weight c) γ

structure Inv (s : Mem) (γ : Actor → Ghost) : Prop where
  glob : Glob s γ
  loc : Loc s γ
  nodes : Nodes s γ
  token : ∀ n, (s.ll n).localIsReserveLock = .i
  created : ∀ n, n.val < ubMaxNodes → s.registered n = true

/-- A leader that gives up finds the reference count at 0 when it resets it. -/
def ResetsClean (_ : Actor → Option Label) (_ : Actor) (e : Label) (s : Mem) : Prop :=
  ∀ n, e = .refReset n → (s.ll n).globalReadRefCount = 0

def outline : Outline Actor Mem Label Ghost := ⟨Inv, fun _ _ => True, ResetsClean, fun _ _ _ => True⟩

/-- An idle thread has exactly what it holds. -/
def Rest : Actor → Holds → Ghost → Prop
  | .app _, h, g => g.s = h.s ∧ g.x = h.x ∧ g.ph = .out
  | .handler _ _, _, _ => True

/-- Every unlock succeeds. -/
def Good : Op → Result → Prop
  | .unlockS _, r | .unlockX _, r => r = .success
  | _, _ => True

/-- One step changes a thread's unit or its part in X, never both. -/
def Apart (g g' : Ghost) : Prop := g'.unit = g.unit ∨ xUnits g' = xUnits g

def spec : Spec Actor Mem Label Op Result Holds Ghost where
  toOutline := outline
  rest := Rest
  moves := fun _ _ => Apart
  good := fun _ _ => Good

/-! ### Relations between the counters -/

theorem lanes_nonneg (g : Ghost) : 0 ≤ lanes g := by
  unfold lanes
  split <;> omega

theorem xLocals_nonneg (g : Ghost) : 0 ≤ xLocals g := by
  unfold xLocals
  split <;> omega

theorem xUnits_nonneg (g : Ghost) : 0 ≤ xUnits g := by
  unfold xUnits
  split <;> omega

theorem one_le_xLocals {g : Ghost} (h : g.named) : 1 ≤ xLocals g := by
  obtain ⟨s, x, u, ph⟩ := g
  unfold xLocals
  rcases h with h | h | h | h <;> simp only at h ⊢
  · split <;> omega
  all_goals subst h; simp

theorem weight_nonneg (c : Count) (g : Ghost) : 0 ≤ weight c g := by
  cases c <;> simp only [weight] <;> cases g.ph <;> simp <;> omega

/-- Every counter counts readers of the local lock. -/
theorem weight_le_lanes (c : Count) (g : Ghost) : weight c g ≤ lanes g := by
  obtain ⟨s, x, u, ph⟩ := g
  cases c <;> cases ph <;> simp [weight, lanes] <;> omega

/-- What holds between the counters of any node. -/
structure Sane (c : Count → ℤ) : Prop where
  nonneg : ∀ k, 0 ≤ c k
  loose : c .loose ≤ c .lead + c .rel
  stale : c .stale ≤ c .rel
  ref : c .ref = c .full + c .fresh
  pub : c .pub ≤ c .fresh

theorem sane_onNode (n : NodeId) (γ : Actor → Ghost) : Sane fun c => onNode n (weight c) γ where
  nonneg := fun k => onNode_nonneg (weight_nonneg k) n
  loose := by
    have h : onNode n (fun g => weight .lead g + weight .rel g) γ
        = onNode n (weight .lead) γ + onNode n (weight .rel) γ := sumOver_add ..
    rw [← h]
    exact sumOver_mono fun g => by cases hg : g.ph <;> simp [weight, hg]
  stale := sumOver_mono fun g => by cases hg : g.ph <;> simp [weight, hg]
  ref := sumOver_add _ (weight .full) (weight .fresh) γ
  pub := sumOver_mono fun g => by cases hg : g.ph <;> simp [weight, hg]

/-! ### Reading the state of a node off one thread -/

section NodeState

variable {k : LocalLock} {b : Bool} {u : ℤ} {c : Count → ℤ}

/-- What the counts of a node say in every state of the node. -/
theorem NodeOk.counts (h : NodeOk k b u c) : k.globalReadRefCount = c .ref ∧
    u = c .loose + min (c .ref) 1 ∧ (if b then 1 else 0) + c .fresh = c .stale + min (c .ref) 1 :=
  ⟨h.ref, h.unit, h.bit⟩

/-- The node of a leader is pending, and nobody else is in the way. -/
theorem NodeOk.of_lead (h : NodeOk k b u c) (hl : 1 ≤ c .lead) :
    k.globalState = .pending ∧ c .ref = 0 ∧ c .lead = 1 ∧ c .pub = 0 ∧ c .rel = 0 := by
  cases hs : k.globalState with
  | idle => have := h.idle hs; omega
  | pending => have := h.pending hs; simp only [true_and]; omega
  | held => have := h.held hs; omega

theorem NodeOk.of_pub (h : NodeOk k b u c) (hp : 1 ≤ c .pub) :
    k.globalState = .pending ∧ 1 ≤ c .ref ∧ c .lead = 0 ∧ c .pub = 1 ∧ c .rel = 0 := by
  cases hs : k.globalState with
  | idle => have := h.idle hs; omega
  | pending => have := h.pending hs; simp only [true_and]; omega
  | held => have := h.held hs; omega

/-- The node of the last reader is held, without a reference. -/
theorem NodeOk.of_rel (h : NodeOk k b u c) (hr : 1 ≤ c .rel) :
    k.globalState = .held ∧ c .ref = 0 ∧ c .lead = 0 ∧ c .pub = 0 ∧ c .rel = 1 := by
  cases hs : k.globalState with
  | idle => have := h.idle hs; omega
  | pending => have := h.pending hs; omega
  | held => have := h.held hs; simp only [true_and]; omega

theorem NodeOk.of_ref (h : NodeOk k b u c) (hr : 1 ≤ c .ref) :
    c .lead = 0 ∧ c .rel = 0 ∧
      (k.globalState = .pending ∧ c .pub = 1 ∨ k.globalState = .held ∧ c .pub = 0) := by
  cases hs : k.globalState with
  | idle => have := h.idle hs; omega
  | pending => have := h.pending hs; simp; omega
  | held => have := h.held hs; simp; omega

end NodeState

/-! ### Steps that keep a part of the invariant -/

section Moves

variable {s s' : Mem} {γ : Actor → Ghost} {l : Location} {g g' : Ghost}

theorem Glob.keep (h : Glob s γ) (hg : γ (.app l) = g) (hw : s'.shm.lockWord = s.shm.lockWord)
    (ho : s'.shm.lockOwnerX = s.shm.lockOwnerX) (hx : xUnits g' = xUnits g)
    (hu : g'.unit = g.unit) (hn : 0 < g'.x → 0 < g.x) :
    Glob s' (Function.update γ (.app l) g') := by
  subst hg
  refine ⟨?_, hw ▸ h.nonneg, fun l' hl' => ?_⟩
  · simp [total_update, hw, h.word, hx, hu]
  · rw [ho]
    by_cases hne : l' = l
    · subst hne
      exact h.owner l' (hn (by simpa using hl'))
    · exact h.owner l' (by simpa [hne] using hl')

/-- The thread's share of the word changes; the owner field does not. -/
theorem Glob.move (h : Glob s γ) (hg : γ (.app l) = g)
    (hw : s'.shm.lockWord = s.shm.lockWord - xLockDecr * (xUnits g' - xUnits g)
      - (g'.unit - g.unit))
    (h0 : 0 ≤ s'.shm.lockWord) (ho : s'.shm.lockOwnerX = s.shm.lockOwnerX)
    (hn : 0 < g'.x → 0 < g.x) : Glob s' (Function.update γ (.app l) g') := by
  subst hg
  refine ⟨?_, h0, fun l' hl' => ?_⟩
  · simp only [total_update, hw, h.word]
    ring
  · rw [ho]
    by_cases hne : l' = l
    · subst hne
      exact h.owner l' (hn (by simpa using hl'))
    · exact h.owner l' (by simpa [hne] using hl')

theorem Loc.keep (h : Loc s γ) (hg : γ (.app l) = g)
    (hll : ∀ n, (s'.ll n).lockWord = (s.ll n).lockWord ∧ (s'.ll n).lockXOwner = (s.ll n).lockXOwner)
    (hl : lanes g' = lanes g) (hx : xLocals g' = xLocals g) (hn : g'.named → g.named) :
    Loc s' (Function.update γ (.app l) g') := by
  subst hg
  refine ⟨fun n => ?_, fun l' hl' => ?_⟩
  · simpa [LocalOk, onNode_update, onLane_update, hl, hx, (hll n).1] using h.word n
  · rw [(hll _).2]
    by_cases hne : l' = l
    · subst hne
      exact h.owner l' (hn (by simpa using hl'))
    · exact h.owner l' (by simpa [hne] using hl')

/-- The local word of the thread's node changes. -/
theorem Loc.move (h : Loc s γ) (hg : γ (.app l) = g)
    (hll : ∀ n, n ≠ l.nodeId → s'.ll n = s.ll n)
    (hw : ∀ x lane, 0 ≤ x → xLocals g ≤ x → (∀ i, 0 ≤ lane i) → lanes g ≤ lane (laneForTid l.tid) →
      LocalOk (s.ll l.nodeId) x lane → LocalOk (s'.ll l.nodeId) (x + (xLocals g' - xLocals g))
        fun i => lane i + if laneForTid l.tid = i then lanes g' - lanes g else 0)
    (hn : g'.named → (s'.ll l.nodeId).lockXOwner = l.tid)
    (ho : (s'.ll l.nodeId).lockXOwner = (s.ll l.nodeId).lockXOwner ∨ 1 ≤ xLocals g) :
    Loc s' (Function.update γ (.app l) g') := by
  subst hg
  refine ⟨fun n => ?_, fun l' hl' => ?_⟩
  · simp only [onNode_update, onLane_update]
    by_cases hne : l.nodeId = n
    · subst hne
      simpa using hw _ _ (onNode_nonneg xLocals_nonneg _) (le_onNode xLocals_nonneg l)
        (onLane_nonneg lanes_nonneg _) (le_onLane lanes_nonneg l) (h.word _)
    · simpa [hne, hll n (Ne.symm hne)] using h.word n
  · by_cases hne : l' = l
    · subst hne
      exact hn (by simpa using hl')
    · have hl'' : (γ (.app l')).named := by simpa [hne] using hl'
      by_cases hnode : l'.nodeId = l.nodeId
      · rw [hnode]
        rcases ho with ho | ho
        · rw [ho, ← hnode]
          exact h.owner l' hl''
        · -- two threads of one node cannot both be exclusive
          have h2 := add_le_sumOver (p := fun k : Location => k.nodeId = l.nodeId) (γ := γ)
            xLocals_nonneg hne hnode rfl
          have h1 := one_le_xLocals hl''
          rcases h.word l.nodeId with ⟨h0, -⟩ | ⟨h0, -⟩ <;> simp only [onNode] at h0 <;> omega
      · rw [hll _ hnode]
        exact h.owner l' hl''

/-- The node's part reads two fields of the local lock. -/
theorem NodeOk.congr {k k' : LocalLock} {b : Bool} {u : ℤ} {c : Count → ℤ} (h : NodeOk k b u c)
    (hr : k'.globalReadRefCount = k.globalReadRefCount) (hs : k'.globalState = k.globalState) :
    NodeOk k' b u c :=
  ⟨hr ▸ h.ref, hs ▸ h.idle, hs ▸ h.pending, hs ▸ h.held, h.unit, h.bit⟩

theorem Nodes.keep (h : Nodes s γ) (hg : γ (.app l) = g)
    (hll : ∀ n, (s'.ll n).globalReadRefCount = (s.ll n).globalReadRefCount ∧
      (s'.ll n).globalState = (s.ll n).globalState)
    (hb : s'.shm.sharedOwnerBitmap = s.shm.sharedOwnerBitmap) (hu : g'.unit = g.unit)
    (hw : ∀ c, weight c g' = weight c g) : Nodes s' (Function.update γ (.app l) g') := by
  subst hg
  intro n
  have hk := (h n).congr (hll n).1 (hll n).2
  simpa only [onNode_update, hu, hw, sub_self, ite_self, add_zero, hb] using hk

/-- The counters of the thread's node change. -/
theorem Nodes.move (h : Nodes s γ) (hg : γ (.app l) = g)
    (hll : ∀ n, n ≠ l.nodeId → s'.ll n = s.ll n)
    (hb : ∀ n, n ≠ l.nodeId →
      s'.shm.sharedOwnerBitmap.getLsbD n.val = s.shm.sharedOwnerBitmap.getLsbD n.val)
    (hw : ∀ u c, Sane c → (∀ k, weight k g ≤ c k) →
      NodeOk (s.ll l.nodeId) (s.shm.sharedOwnerBitmap.getLsbD l.nodeId.val) u c →
      NodeOk (s'.ll l.nodeId) (s'.shm.sharedOwnerBitmap.getLsbD l.nodeId.val)
        (u + (g'.unit - g.unit)) fun k => c k + (weight k g' - weight k g)) :
    Nodes s' (Function.update γ (.app l) g') := by
  subst hg
  intro n
  simp only [onNode_update]
  by_cases hne : l.nodeId = n
  · subst hne
    simpa using hw _ _ (sane_onNode _ γ) (fun k => le_onNode (weight_nonneg k) l) (h _)
  · simpa [hne, hll n (Ne.symm hne), hb n (Ne.symm hne)] using h n

end Moves

/-! ### What the invariant says -/

section Facts

variable {s : Mem} {γ : Actor → Ghost}

theorem Inv.unit_le (h : Inv s γ) (n : NodeId) :
    0 ≤ onNode n (·.unit) γ ∧ onNode n (·.unit) γ ≤ 1 := by
  have hn := h.nodes n
  have hs := sane_onNode n γ
  have h0 := hs.nonneg
  have hl := h0 .loose; have hr := h0 .ref
  have := hs.loose; have := h0 .lead; have := h0 .rel
  have hu := hn.unit
  cases hst : (s.ll n).globalState with
  | idle => have := hn.idle hst; omega
  | pending => have := hn.pending hst; omega
  | held => have := hn.held hst; omega

theorem Inv.units_nonneg (h : Inv s γ) : 0 ≤ total (·.unit) γ := by
  rw [total_eq_sum_onNode]
  exact Finset.sum_nonneg fun n _ => (h.unit_le n).1

theorem Inv.unit_le_total (h : Inv s γ) (n : NodeId) :
    onNode n (·.unit) γ ≤ total (·.unit) γ := by
  rw [total_eq_sum_onNode]
  exact le_sum_of_nonneg (fun n => (h.unit_le n).1) n

/-- Somebody has X out of the word: nothing else is out. -/
theorem Inv.alone (h : Inv s γ) {l : Location} (hl : 1 ≤ xUnits (γ (.app l))) :
    s.shm.lockWord = 0 ∧ total xUnits γ = 1 := by
  have hw := h.glob.word
  have h0 := h.glob.nonneg
  have hu := h.units_nonneg
  have hx := le_total (γ := γ) xUnits_nonneg l
  simp only [xLockDecr] at hw
  omega

/-- A node with an exclusive thread has no reader. -/
theorem Inv.no_reader (h : Inv s γ) {l : Location} (hl : 1 ≤ xLocals (γ (.app l))) :
    (s.ll l.nodeId).lockWord = .xState ∧ ∀ i, onLane l.nodeId i lanes γ = 0 := by
  have hx := le_onNode (γ := γ) xLocals_nonneg l
  rcases h.loc.word l.nodeId with ⟨h0, -⟩ | ⟨-, hw⟩
  · omega
  · exact hw

/-- A node with a reader has no exclusive thread. -/
theorem Inv.reader (h : Inv s γ) {l : Location} (hl : 1 ≤ lanes (γ (.app l))) :
    (s.ll l.nodeId).lockWord (laneForTid l.tid)
        = ⟨(onLane l.nodeId (laneForTid l.tid) lanes γ).toNat, false, false⟩ ∧
      1 ≤ onLane l.nodeId (laneForTid l.tid) lanes γ := by
  have hle := le_onLane (γ := γ) lanes_nonneg l
  rcases h.loc.word l.nodeId with ⟨-, hw⟩ | ⟨-, -, hw⟩
  · exact ⟨hw _, by omega⟩
  · have h0 : onLane l.nodeId (laneForTid l.tid) lanes γ = 0 := hw _
    omega

/-- An exclusive node is in no S period. -/
theorem Inv.idle_of_exclusive (h : Inv s γ) {l : Location} (hl : 1 ≤ xLocals (γ (.app l))) :
    (s.ll l.nodeId).globalState = .idle := by
  have hz : onNode l.nodeId lanes γ = 0 := by
    rw [onNode_eq_sum_onLane]
    exact Finset.sum_eq_zero fun i _ => (h.no_reader hl).2 i
  have hc : ∀ c, onNode l.nodeId (weight c) γ ≤ 0 := fun c => hz ▸ sumOver_mono (weight_le_lanes c)
  have hn := h.nodes l.nodeId
  have := hc .ref; have := hc .lead; have := hc .pub; have := hc .rel
  cases hst : (s.ll l.nodeId).globalState with
  | idle => rfl
  | pending => have := hn.pending hst; omega
  | held => have := hn.held hst; omega

end Facts

end SharedAccounting

end UbsAtomic
