import UbsAtomic.Lock.Histories

/-! Balanced use drains the lock.

    Without delays and without waiters an unlock call makes no choice and goes round no loop twice,
    so it comes to an end, and the ledger says what it leaves behind. When all holds are gone the
    ledger is empty, and so are the fields of the lock:

        lock_word = X_LOCK_DECR    shared_owner_bitmap = 0    local lock_word = 0 -/

namespace UbsAtomic

open Conc Conc.Prog

namespace Ledger

/-- Every run of the call alone comes to an end, with `Q`. -/
abbrev Returns {α : Type} (p : Call α) (Q : α → Mem → Prop) (s : Mem) : Prop :=
  p.Total (fun _ => True) Q s

/-- Nobody waits, neither for the lock nor for a local lock. -/
structure NoWaiters (s : Mem) : Prop where
  shared : s.shm.queue.count = 0
  onNode : ∀ n, (s.ll n).queue.count = 0

section Fields

variable {α β : Type} {e : Label} {s : Mem} {n : NodeId}

/-- A place whose variable is no `waiting_count`. -/
class NoCount (p : Place Mem α) : Prop where
  set : ∀ v s, NoWaiters s → NoWaiters (p.set v s)

theorem noCount_shm {get : UbRwLock → α} {set : α → UbRwLock → UbRwLock}
    (h : ∀ v a, (set v a).queue = a.queue) : NoCount (shmField get set) :=
  ⟨fun v s hw => ⟨(congrArg RingQueue.count (h v s.shm)).trans hw.shared, hw.onNode⟩⟩

theorem noCount_local {get : LocalLock → α} {set : α → LocalLock → LocalLock}
    (h : ∀ v k, (set v k).queue = k.queue) : NoCount (Local.field n get set) := by
  refine ⟨fun v s hw => ⟨hw.shared, fun i => ?_⟩⟩
  by_cases hi : i = n
  · subst hi
    simp [Local.field, h, hw.onNode]
  · simp [Local.field, hi, hw.onNode]

instance : NoCount (Local.lockWord n) := noCount_local fun _ _ => rfl

instance (i : Fin 4) : NoCount (Local.lane n i) := noCount_local fun _ _ => rfl

instance : NoCount (Local.readCount n) := noCount_local fun _ _ => rfl

instance : NoCount (Local.lockXOwner n) := noCount_local fun _ _ => rfl

instance : NoCount (Local.lockSxOwner n) := noCount_local fun _ _ => rfl

instance : NoCount (Local.xRecursive n) := noCount_local fun _ _ => rfl

instance : NoCount (Local.sxRecursive n) := noCount_local fun _ _ => rfl

instance : NoCount (Local.localIsReserveLock n) := noCount_local fun _ _ => rfl

instance : NoCount (Local.holdGlobal n) := noCount_local fun _ _ => rfl

instance : NoCount (Local.globalState n) := noCount_local fun _ _ => rfl

instance : NoCount (Local.globalReadRefCount n) := noCount_local fun _ _ => rfl

instance : NoCount Shm.lockWord := noCount_shm fun _ _ => rfl

instance : NoCount Shm.lockOwnerX := noCount_shm fun _ _ => rfl

instance : NoCount Shm.lockOwnerSx := noCount_shm fun _ _ => rfl

instance : NoCount Shm.xRecursive := noCount_shm fun _ _ => rfl

instance : NoCount Shm.sxRecursive := noCount_shm fun _ _ => rfl

instance : NoCount Shm.sharedOwnerBitmap := noCount_shm fun _ _ => rfl

/-! ### Atomic steps while nobody waits -/

variable {p : Place Mem α}

theorem returns_load {Q : α → Mem → Prop} (h : ∀ v, Q v s) : Returns (loadAt e p) Q s :=
  total_load trivial (h _)

theorem returns_store [hp : NoCount p] {v : α} {Q : Unit → Mem → Prop} (hw : NoWaiters s)
    (h : ∀ s', NoWaiters s' → Q () s') : Returns (storeAt e p v) Q s :=
  total_store trivial (h _ (hp.set _ _ hw))

theorem returns_rmw [hp : NoCount p] {f : α → α × β} {Q : β → Mem → Prop} (hw : NoWaiters s)
    (h : ∀ v s', NoWaiters s' → Q v s') : Returns (rmwAt e p f) Q s :=
  total_rmw trivial (h _ _ (hp.set _ _ hw))

theorem returns_cas [DecidableEq α] [hp : NoCount p] {x y : α} {Q : Bool × α → Mem → Prop}
    (hw : NoWaiters s) (h : ∀ r s', NoWaiters s' → Q r s') : Returns (casAt e p x y) Q s :=
  total_cas trivial (fun _ => h _ _ (hp.set _ _ hw)) fun _ => h _ _ hw

end Fields

/-! ### The unlock calls come to an end -/

section Unlocks

variable {s : Mem} {n : NodeId} {l : Location}

theorem returns_wakeIfWaiting (hw : NoWaiters s) :
    Returns (wakeIfWaiting l) (fun _ s' => NoWaiters s') s := by
  refine .bind (total_load trivial ?_)
  have h0 : sharedQueue.count.get s = 0 := hw.shared
  rw [h0]
  exact .ret hw

/-- With nobody waiting, SX is released to the end. -/
theorem returns_wakeAfterSx (now : ℤ) (hw : NoWaiters s) :
    Returns (wakeAfterSx now l) (fun b s' => b = true ∧ NoWaiters s') s := by
  refine .bind (total_load trivial ?_)
  have h0 : sharedQueue.count.get s = 0 := hw.shared
  rw [h0]
  exact .ret ⟨rfl, hw⟩

theorem returns_notifyPending (hw : NoWaiters s) :
    Returns (notifyPending n) (fun _ s' => NoWaiters s') s :=
  .act ⟨0, trivial, rfl⟩ fun c s' b _ hf => by
    cases hf
    exact .ret ⟨hw.shared, hw.onNode⟩

theorem returns_clearSharedOwnerBitmap (hw : NoWaiters s) :
    Returns (clearSharedOwnerBitmap n) (fun _ s' => NoWaiters s') s := by
  unfold clearSharedOwnerBitmap
  split
  · exact .ret hw
  · exact .bind (returns_rmw hw fun _ _ hw => .ret hw)

/-- The queue of a local lock is not looked at. -/
theorem returns_localWake {Q : Result → Mem → Prop} (hw : NoWaiters s) (h : Q .success s) :
    Returns (do
      let waiting ← loadAt (.localQ n .step) (localQueue n).count
      ifThen (waiting > 0) (LocalLock.wakeAfterUnlockExclusive n)
      return Result.success) Q s := by
  refine .bind (total_load trivial ?_)
  have h0 : (localQueue n).count.get s = 0 := hw.onNode n
  rw [h0]
  exact .ret h

theorem returns_localUnlockS (hw : NoWaiters s) :
    Returns (LocalLock.unlockS l) (fun _ _ => True) s := by
  have hrelease : Returns (localLockTryReleaseS l.nodeId l.tid) (fun _ s' => NoWaiters s') s := by
    refine .bind (total_load trivial (total_loop ?_))
    split
    · exact .ret hw
    split
    · exact .ret hw
    -- the lane is the one just loaded, so the first CAS succeeds
    refine .bind (total_cas trivial (fun _ => ?_) fun hne => absurd rfl hne)
    exact .bind (returns_load fun _ => .ret (NoCount.set _ _ hw))
  refine .bind (hrelease.mono fun after s' hw' => ?_)
  cases after with
  | none => exact .ret trivial
  | some after =>
    dsimp only
    split
    · exact returns_localWake hw' trivial
    · exact .ret trivial

theorem returns_localUnlockX (hw : NoWaiters s) :
    Returns (LocalLock.unlockX false l) (fun _ _ => True) s := by
  refine .bind (returns_load fun _ => ?_)
  split
  · exact .ret trivial
  refine .bind (.ret ?_)
  rw [if_neg (by decide)]
  refine .bind (returns_store hw fun _ hw => ?_)
  refine .bind (returns_store hw fun _ hw => ?_)
  refine .bind (returns_store hw fun _ hw => ?_)
  exact returns_localWake hw trivial

/-- The flag of the local word is cleared before the call returns SUCCESS. -/
theorem returns_localUnlockSx (hw : NoWaiters s) :
    Returns (LocalLock.unlockSx false l) (fun r s' => r = .success →
      ((s'.ll l.nodeId).lockWord 0).flag = false) s := by
  refine .bind (returns_load fun _ => ?_)
  split
  · exact .ret (by simp)
  refine .bind (returns_load fun _ => ?_)
  split
  · exact .ret (by simp)
  refine .bind (.ret ?_)
  rw [if_neg (by decide)]
  refine .bind (returns_store hw fun _ hw => ?_)
  refine .bind (returns_store hw fun s hw => ?_)
  refine .bind (.bind (total_rmw trivial ?_))
  split
  · exact .ret (.ret (by simp))
  refine .bind (total_load trivial (.ret ?_))
  refine .bind (total_load trivial ?_)
  have hset := NoCount.set (p := Local.lane l.nodeId 0)
    { (Local.lane l.nodeId 0).get s with flag := false } s hw
  have h0 : (localQueue l.nodeId).count.get ((Local.lane l.nodeId 0).set
      { (Local.lane l.nodeId 0).get s with flag := false } s) = 0 := hset.onNode l.nodeId
  dsimp only
  rw [h0, if_neg (by decide)]
  exact .ret fun _ => by simp [Local.lane, Local.field]

theorem returns_unlockS (hw : NoWaiters s) : Returns (unlockS .base l) (fun _ _ => True) s := by
  unfold unlockS
  split
  · exact .ret trivial
  refine .bind (returns_load fun _ => ?_)
  split
  · exact .ret trivial
  refine .bind (returns_load fun _ => ?_)
  dsimp only
  split
  · exact .ret trivial
  refine .bind (returns_rmw hw fun _ _ hw => ?_)
  split
  · exact returns_localUnlockS hw
  split
  · exact .bind (returns_rmw hw fun _ _ _ => .ret trivial)
  have hrelease : ∀ {s : Mem}, NoWaiters s →
      Returns (releaseS .base l) (fun _ s' => NoWaiters s') s := by
    intro s hw
    refine .bind (.ret ?_)
    rw [if_neg (by decide)]
    refine .bind (returns_store hw fun _ hw => ?_)
    refine .bind (returns_rmw hw fun _ _ hw => ?_)
    split
    · exact .bind (returns_rmw hw fun _ _ hw => .ret hw)
    split
    · refine .bind ((returns_wakeIfWaiting hw).mono fun _ _ hw => ?_)
      exact .bind ((returns_clearSharedOwnerBitmap hw).mono fun _ _ hw => .ret hw)
    · exact .bind ((returns_clearSharedOwnerBitmap hw).mono fun _ _ hw => .ret hw)
  refine .bind ((hrelease hw).mono fun ret _ hw => ?_)
  split
  · exact .ret trivial
  refine .bind (returns_store hw fun _ hw => ?_)
  refine .bind (returns_cas hw fun _ _ hw => ?_)
  refine .bind ((returns_notifyPending hw).mono fun _ _ hw => ?_)
  refine .bind (returns_store hw fun _ hw => ?_)
  exact returns_localUnlockS hw

theorem returns_unlockX (hw : NoWaiters s) : Returns (unlockX .base l) (fun _ _ => True) s := by
  unfold unlockX
  split
  · exact .ret trivial
  refine .bind (returns_load fun _ => ?_)
  split
  · exact .ret trivial
  refine .bind (.ret ?_)
  rw [if_neg (by decide)]
  have hrelease : Returns (releaseX .base l) (fun _ s' => NoWaiters s') s := by
    refine .bind (returns_load fun _ => ?_)
    split
    · exact .ret hw
    refine .bind (.ret ?_)
    rw [if_neg (by decide)]
    refine .bind (returns_store hw fun _ hw => ?_)
    refine .bind (returns_store hw fun _ hw => ?_)
    refine .bind (returns_store hw fun _ hw => ?_)
    refine .bind (returns_store hw fun _ hw => ?_)
    refine .bind (returns_store hw fun _ hw => ?_)
    exact .bind ((returns_wakeIfWaiting hw).mono fun _ _ hw => .ret hw)
  refine .bind (hrelease.mono fun _ _ hw => ?_)
  split
  · exact .ret trivial
  refine .bind (returns_store hw fun _ hw => ?_)
  exact returns_localUnlockX hw

theorem returns_unlockSx (hw : NoWaiters s) :
    Returns (unlockSx .base l) (fun r s' => r = .success →
      ((s'.ll l.nodeId).lockWord 0).flag = false) s := by
  unfold unlockSx
  split
  · exact .ret (by simp)
  refine .bind (returns_load fun _ => ?_)
  split
  · exact .ret (by simp)
  refine .bind (.ret ?_)
  rw [if_neg (by decide)]
  have hrelease : Returns (releaseSx .base l) (fun b s' => b ≠ some false ∧ NoWaiters s') s := by
    refine .bind (returns_load fun _ => ?_)
    split
    · exact .ret ⟨by simp, hw⟩
    refine .bind (.ret ?_)
    rw [if_neg (by decide)]
    refine .bind (returns_store hw fun _ hw => ?_)
    refine .bind (returns_store hw fun _ hw => ?_)
    refine .bind (returns_store hw fun _ hw => ?_)
    refine .bind (returns_store hw fun _ hw => ?_)
    refine .bind (returns_rmw hw fun _ _ hw => ?_)
    refine .bind ((returns_wakeAfterSx _ hw).mono ?_)
    rintro b _ ⟨rfl, hw⟩
    exact .ret ⟨by simp, hw⟩
  refine .bind (hrelease.mono ?_)
  rintro b s' ⟨hb, hw⟩
  match b, hb with
  | none, _ => exact .ret (by simp)
  | some true, _ =>
    refine .bind (returns_store hw fun _ hw => ?_)
    exact returns_localUnlockSx hw

end Unlocks

/-! ### Balanced histories -/

/-- `recursive = false` and `allow_delay_release = false`. -/
def baseOnly : Op → Bool
  | .lockSx p => p = .base
  | .lockX p => p = .base
  | .unlockS p => p = .base
  | .unlockSx p => p = .base
  | .unlockX p => p = .base
  | _ => true

def isUnlock : Op → Bool
  | .unlockS _ => true
  | .unlockSx _ => true
  | .unlockX _ => true
  | _ => false

/-- A `lock_s` that will not follow a published hold finds no S on its node. -/
def LeadsAlone (s : Mem) : Actor → Event → Prop
  | .app l, .call .lockS =>
    (s.ll l.nodeId).globalReadRefCount = 0 ∨ (s.ll l.nodeId).globalState = .held
  | _, _ => True

instance (s : Mem) (t : Actor) (e : Event) : Decidable (LeadsAlone s t e) := by
  rcases t with l | _ <;> rcases e with op | _
  · cases op <;> first | exact .isTrue trivial | exact inferInstanceAs (Decidable (_ ∨ _))
  all_goals exact .isTrue trivial

instance (s : Mem) : Decidable (NoWaiters s) :=
  decidable_of_iff (s.shm.queue.count = 0 ∧ ∀ n, (s.ll n).queue.count = 0)
    ⟨fun h => ⟨h.1, h.2⟩, fun h => ⟨h.1, h.2⟩⟩

/-- Unlocking what is held always works, the reference counts are those of the S holds, and the
    lock is as good as new when nothing is held. -/
structure Drains (x : LockBoundary) : Prop where
  unlocks : NoWaiters x.mem → ∀ t op, isUnlock op = true →
    (client baseOnly).allowed t (x.held t) (.call op) = true →
    Returns (callCode t op) (fun r _ => r = .success) x.mem
  ref : ∀ n, (x.mem.ll n).globalReadRefCount = UbsAtomic.onNode n nS x.held
  drained : (∀ l, x.held (.app l) = .none) → x.mem.shm.lockWord = xLockDecr ∧
    x.mem.shm.sharedOwnerBitmap = 0 ∧ ∀ n, (x.mem.ll n).lockWord = .zero

section Draining

variable {x : LockBoundary} {tidy : Prop}

/-- Without a token only `lock_s` can overwrite anything. -/
theorem Ok.spares (h : Ok x.mem.face x.held none tidy) {t : Actor} {e : Event}
    (hl : LeadsAlone x.mem t e) : Spares x.mem t e := by
  have htok : ∀ n, (x.mem.ll n).localIsReserveLock = .i := fun n => (h.node n).token
  cases t with
  | handler n i =>
    cases e with
    | call op => trivial
    | release msg => exact .inl (htok n)
  | app l =>
    cases e with
    | release msg => trivial
    | call op =>
      cases op with
      | lockS => exact hl
      | unlockS p => exact fun _ => htok _
      | unlockSx p => exact htok _
      | lockSx p => trivial
      | lockX p => trivial
      | unlockX p => trivial
      | handle => trivial

/-- Every run of an unlock by a holder returns SUCCESS. -/
theorem Ok.unlock_success (h : Ok x.mem.face x.held none tidy) {t : Actor} {op : Op} {r : Result}
    {s : Mem} (hop : isUnlock op = true)
    (ha : (client baseOnly).allowed t (x.held t) (.call op) = true)
    (hr : (callCode t op).Run x.mem r s) : r = .success := by
  have htok : ∀ n, (x.mem.ll n).localIsReserveLock = .i := fun n => (h.node n).token
  cases t with
  | handler n i => simp [client] at ha
  | app l =>
    simp only [client, Bool.and_eq_true, decide_eq_true_eq] at ha
    obtain ⟨⟨⟨hn, -⟩, howns⟩, hbase⟩ := ha
    cases op with
    | unlockS p =>
      exact (hr.sound (unlockS_ledger p h hn (by simpa [Holds.owns] using howns) fun _ => htok _)).1
    | unlockSx p =>
      obtain rfl : p = .base := by simpa [baseOnly] using hbase
      exact (hr.sound (unlockSx_ledger _ rfl h hn (by simpa [Holds.owns] using howns) (htok _))).1
    | unlockX p =>
      obtain rfl : p = .base := by simpa [baseOnly] using hbase
      exact (hr.sound (unlockX_ledger _ rfl h hn (by simpa [Holds.owns] using howns))).1
    | lockS => cases hop
    | lockSx p => cases hop
    | lockX p => cases hop
    | handle => cases hop

theorem Ok.unlocks (h : Ok x.mem.face x.held none tidy) (hw : NoWaiters x.mem) {t : Actor} {op : Op}
    (hop : isUnlock op = true)
    (ha : (client baseOnly).allowed t (x.held t) (.call op) = true) :
    Returns (callCode t op) (fun r _ => r = .success) x.mem := by
  have hends : Returns (callCode t op) (fun _ _ => True) x.mem := by
    cases t with
    | handler n i => simp [client] at ha
    | app l =>
      have hbase : baseOnly op = true := by
        simp only [client, Bool.and_eq_true] at ha
        exact ha.2
      cases op with
      | unlockS p =>
        obtain rfl : p = .base := by simpa [baseOnly] using hbase
        exact returns_unlockS hw
      | unlockSx p =>
        obtain rfl : p = .base := by simpa [baseOnly] using hbase
        exact (returns_unlockSx hw).mono fun _ _ _ => trivial
      | unlockX p =>
        obtain rfl : p = .base := by simpa [baseOnly] using hbase
        exact returns_unlockX hw
      | lockS => cases hop
      | lockSx p => cases hop
      | lockX p => cases hop
      | handle => cases hop
  exact hends.of_run fun r s hr => h.unlock_success hop ha hr

/-- An empty ledger is that of an unused lock. -/
theorem Ok.drained (h : Ok x.mem.face x.held none True) (hnone : ∀ l, x.held (.app l) = .none) :
    x.mem.shm.lockWord = xLockDecr ∧ x.mem.shm.sharedOwnerBitmap = 0 ∧
      ∀ n, (x.mem.ll n).lockWord = .zero := by
  have hzero : ∀ (p : Location → Prop) [DecidablePred p] (f : Holds → ℤ), f .none = 0 →
      sumOver p f x.held = 0 := by
    intro p _ f hf
    refine sumOver_eq_zero fun l _ => ?_
    rw [hnone l]
    exact hf
  have hunit : ∀ n, unit x.held none n = 0 := fun n => unit_eq_zero (hzero _ nS rfl) (by simp)
  refine ⟨?_, ?_, fun n => ?_⟩
  · have hword := h.glob.word
    rw [total, hzero _ nX rfl, total, hzero _ nSx rfl, Finset.sum_eq_zero fun n _ => hunit n] at hword
    have hword' : xLockDecr - x.mem.shm.lockWord = 0 := hword
    omega
  · refine BitVec.eq_of_getLsbD_eq fun i hi => ?_
    have hbit : x.mem.shm.sharedOwnerBitmap.getLsbD i = decide (unit x.held none ⟨i, by omega⟩ = 1) :=
      h.glob.bits ⟨i, by omega⟩ hi
    rw [hbit, hunit]
    simp
  · have hno : onNode n nX x.held = 0 := hzero _ nX rfl
    funext i
    obtain ⟨hc, hs, hf⟩ := (h.node n).lanes hno i
    have hlane : onLane n i nS x.held = 0 := hzero _ nS rfl
    have hcount : ((x.mem.ll n).lockWord i).count = 0 := by
      rw [hlane] at hc
      exact Int.natCast_eq_zero.mp hc
    have hflag : ((x.mem.ll n).lockWord i).flag = false := by
      by_cases hi : i = 0
      · subst hi
        exact (h.node n).clear trivial (hzero _ nSx rfl)
      · exact hf hi
    have hsen : ((x.mem.ll n).lockWord i).sentinel = false := hs
    calc (x.mem.ll n).lockWord i
        = ⟨((x.mem.ll n).lockWord i).count, ((x.mem.ll n).lockWord i).sentinel,
            ((x.mem.ll n).lockWord i).flag⟩ := rfl
      _ = StateWord.zero i := by rw [hcount, hsen, hflag]; rfl

end Draining

theorem baseOnly_nonRecursive (op : Op) (h : baseOnly op = true) : nonRecursive op = true := by
  have hbase : ∀ p : Policy, decide (p = .base) = true → (!p.recursive) = true := by
    intro p hp
    rw [of_decide_eq_true hp]
    rfl
  cases op with
  | lockSx p => exact hbase p h
  | lockX p => exact hbase p h
  | unlockSx p => exact hbase p h
  | unlockX p => exact hbase p h
  | lockS => rfl
  | unlockS p => rfl
  | handle => rfl

theorem baseOnly_notDelayed (p : Policy) (h : baseOnly (.unlockS p) = true ∨
    baseOnly (.unlockSx p) = true ∨ baseOnly (.unlockX p) = true) : p.allowDelayRelease = false := by
  simp only [baseOnly, decide_eq_true_eq, or_self] at h
  rw [h]
  rfl

/-- In every balanced history whose S leaders find no S on their node, the lock drains. -/
theorem drains_of_leadsAlone {x : LockBoundary}
    (h : Boundary.History (client baseOnly)
      (fun x t e r => Locks e r ∧ NoWaiters x.mem ∧ LeadsAlone x.mem t e) fresh x) : Drains x := by
  have hok : Ok x.mem.face x.held none True := by
    refine h.invariant (J := fun x => Ok x.mem.face x.held none True) ok_fresh ?_
    rintro x t e r y hx ⟨hlock, hw, hlead⟩ hc
    obtain ⟨o', tidy', hy, ho, htidy⟩ :=
      ok_call baseOnly_nonRecursive hx hlock (hx.spares hlead) hc
    obtain rfl := ho baseOnly_notDelayed rfl
    have hflag : ∀ l p, t = .app l → e = .call (.unlockSx p) →
        ((y.mem.ll l.nodeId).lockWord 0).flag = false := by
      rintro l p rfl rfl
      obtain ⟨ha, s, hrun, rfl⟩ := hc
      have hsucc := hx.unlock_success rfl ha hrun
      have hbase : p = .base := by
        simp only [client, Bool.and_eq_true] at ha
        simpa [baseOnly] using ha.2
      subst hbase
      exact (returns_unlockSx hw).sound hrun hsucc
    rwa [htidy hflag] at hy
  exact ⟨fun hw t op => hok.unlocks hw, fun n => (hok.node n).ref, hok.drained⟩

/-- Two S of one node next to an SX of another one: both units and the half come back. -/
theorem drains_of_leadsAlone_mixed : ∃ x, Drains x ∧ (∀ l, x.held (.app l) = .none) ∧
    x.mem.shm.lockWord = xLockDecr := by
  obtain ⟨x, hx, h1, h2, h3⟩ := Boundary.history_of_play (client baseOnly)
    (fun x t e r => (Locks e r ∧ NoWaiters x.mem ∧ LeadsAlone x.mem t e) ∧
      (t = .app ⟨1, 0⟩ ∨ t = .app ⟨2, 0⟩ ∨ t = .app ⟨1, 1⟩)) fresh
    [(.app ⟨1, 0⟩, .call .lockS), (.app ⟨1, 1⟩, .call (.lockSx .base)),
      (.app ⟨2, 0⟩, .call .lockS), (.app ⟨1, 0⟩, .call (.unlockS .base)),
      (.app ⟨1, 1⟩, .call (.unlockSx .base)), (.app ⟨2, 0⟩, .call (.unlockS .base))]
    (fun x => x.held (.app ⟨1, 0⟩) = .none ∧ x.held (.app ⟨2, 0⟩) = .none ∧
      x.held (.app ⟨1, 1⟩) = .none) (by decide +kernel)
  have hdrains : Drains x := drains_of_leadsAlone (hx.mono fun _ _ _ _ h => h.1)
  have hnone : ∀ l, x.held (.app l) = .none := by
    intro l
    by_cases hl1 : l = ⟨1, 0⟩
    · rwa [hl1]
    by_cases hl2 : l = ⟨2, 0⟩
    · rwa [hl2]
    by_cases hl3 : l = ⟨1, 1⟩
    · rwa [hl3]
    refine hx.held_eq fun _ t' _ _ h e => ?_
    subst e
    rcases h.2 with e | e | e
    · exact hl1 (Actor.app.inj e)
    · exact hl2 (Actor.app.inj e)
    · exact hl3 (Actor.app.inj e)
  exact ⟨x, hdrains, hnone, (hdrains.drained hnone).1⟩

/-- Thread 2 takes and drops SX next to the S of thread 1; thread 3 then leads anew and sets the
    reference count of two S holders to 1. The `unlock_s` of thread 1 gives the last reference
    back, and that of thread 3 is refused. -/
theorem drains_violated : ∃ x, Boundary.History (client baseOnly)
      (fun x _ e r => Locks e r ∧ NoWaiters x.mem ∧ e.isCall = true) fresh x ∧
    NoWaiters x.mem ∧ (x.held (.app ⟨3, 0⟩)).s = 1 ∧
    (∃ s, (unlockS .base ⟨3, 0⟩).Run x.mem .error s) ∧ ¬ Drains x := by
  obtain ⟨x, hx, hw, hs, hexec⟩ := Boundary.history_of_play (client baseOnly)
    (fun x _ e r => Locks e r ∧ NoWaiters x.mem ∧ e.isCall = true) fresh
    [(.app ⟨1, 0⟩, .call .lockS), (.app ⟨2, 0⟩, .call (.lockSx .base)),
      (.app ⟨2, 0⟩, .call (.unlockSx .base)), (.app ⟨3, 0⟩, .call .lockS),
      (.app ⟨1, 0⟩, .call (.unlockS .base))]
    (fun x => NoWaiters x.mem ∧ (x.held (.app ⟨3, 0⟩)).s = 1 ∧
      ((unlockS .base ⟨3, 0⟩).exec 1000 x.mem).map (·.1) = some .error) (by decide +kernel)
  obtain ⟨⟨r, s⟩, hrun, rfl⟩ := Option.map_eq_some_iff.mp hexec
  refine ⟨x, hx, hw, hs, ⟨s, run_of_exec hrun⟩, fun hd => ?_⟩
  have hallow : (client baseOnly).allowed (.app ⟨3, 0⟩) (x.held (.app ⟨3, 0⟩))
      (.call (.unlockS .base)) = true := by
    simp [client, Holds.owns, hs, baseOnly, ubMaxNodes]
  have hret := (hd.unlocks hw (.app ⟨3, 0⟩) (.unlockS .base) rfl hallow).sound (run_of_exec hrun)
  cases hret

end Ledger

end UbsAtomic
