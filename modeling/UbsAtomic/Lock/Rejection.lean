import UbsAtomic.Lock.Histories

/-! Unlocking what one does not hold (`unlock_x`, `unlock_sx` and `unlock_s` of
    `ub_distribute_lock.cpp`).

        allow_delay, nobody waits,   ──▶  reserve_lock_owner := caller     (nothing is checked)
        reserve_lock_owner free           local_is_reserve_lock := X / SX
        otherwise                    ──▶  lock_owner = caller ?  no: UB_LOCK_ERROR
                                                                 yes: release

    Only the second way looks at the owner before it writes, and the owner of a lock that was
    released with delay is still the thread that released it. S has no owner at all: `unlock_s`
    looks at a reader count that the caller shares with every fourth thread of its node. -/

namespace UbsAtomic

open Conc Conc.Prog

namespace Rejection

/-- The two modes that one thread holds alone. -/
inductive Exclusive where | x | sx
  deriving DecidableEq

def Exclusive.unlock : Exclusive → Policy → Location → Call Result
  | .x => unlockX
  | .sx => unlockSx

/-- `lock_owner_x` or `lock_owner_sx`. -/
def Exclusive.owner : Exclusive → UbRwLock → ℕ
  | .x, a => a.lockOwnerX
  | .sx, a => a.lockOwnerSx

/-- `x_recursive` or `sx_recursive`. -/
def Exclusive.depth : Exclusive → UbRwLock → ℕ
  | .x, a => a.xRecursive
  | .sx, a => a.sxRecursive

/-- What a rejected unlock on node `n` has to leave alone. -/
structure Unchanged (n : NodeId) (s s' : Mem) : Prop where
  lockWord : s'.shm.lockWord = s.shm.lockWord
  lockOwnerX : s'.shm.lockOwnerX = s.shm.lockOwnerX
  lockOwnerSx : s'.shm.lockOwnerSx = s.shm.lockOwnerSx
  xRecursive : s'.shm.xRecursive = s.shm.xRecursive
  sxRecursive : s'.shm.sxRecursive = s.shm.sxRecursive
  reserveLockOwner : s'.shm.reserveLockOwner = s.shm.reserveLockOwner
  sharedOwnerBitmap : s'.shm.sharedOwnerBitmap = s.shm.sharedOwnerBitmap
  localIsReserveLock : (s'.ll n).localIsReserveLock = (s.ll n).localIsReserveLock
  holdGlobal : (s'.ll n).holdGlobal = (s.ll n).holdGlobal
  globalState : (s'.ll n).globalState = (s.ll n).globalState
  localWord : (s'.ll n).lockWord = (s.ll n).lockWord
  localOwnerX : (s'.ll n).lockXOwner = (s.ll n).lockXOwner
  localOwnerSx : (s'.ll n).lockSxOwner = (s.ll n).lockSxOwner

theorem Unchanged.refl (n : NodeId) (s : Mem) : Unchanged n s s :=
  ⟨rfl, rfl, rfl, rfl, rfl, rfl, rfl, rfl, rfl, rfl, rfl, rfl, rfl⟩

/-- The call returns, with an error, and has changed nothing. -/
def Rejected (e : Exclusive) (policy : Policy) (l : Location) (s : Mem) : Prop :=
  Total (fun _ => True) (fun r s' => r = .error ∧ Unchanged l.nodeId s s') (e.unlock policy l) s

/-- The call is not turned away for its parameters. -/
def Known (l : Location) (s : Mem) : Prop := verifyParam l = true ∧ s.registered l.nodeId = true

/-- The delayed release is open to the caller. -/
def CanDelay (policy : Policy) (l : Location) (s : Mem) : Prop :=
  policy.allowDelayRelease = true ∧ s.shm.queue.count = 0 ∧ (s.ll l.nodeId).queue.count = 0 ∧
    s.shm.reserveLockOwner = lockInvalidOwner

variable {e : Exclusive} {policy : Policy} {l : Location} {s s' : Mem} {r : Result}

/-! ### The delayed branch -/

theorem total_tryDelay :
    Total (fun _ => True) (fun b s' => (b = true ↔ CanDelay policy l s) ∧
      s' = if b then Shm.reserveLockOwner.set (makeGlobalOwner l) s else s) (tryDelay policy l) s := by
  rw [tryDelay]
  split_ifs with hd
  · refine .ret ⟨?_, rfl⟩
    rw [Bool.not_eq_true'] at hd
    simp [CanDelay, hd]
  rw [Bool.not_eq_true', Bool.not_eq_false] at hd
  refine .bind (total_load trivial ?_)
  have hs : sharedQueue.count.get s = s.shm.queue.count := rfl
  rw [hs]
  split_ifs with hc
  · exact .ret ⟨by simp [CanDelay, hc], rfl⟩
  refine .bind (total_load trivial ?_)
  have hl : (localQueue l.nodeId).count.get s = (s.ll l.nodeId).queue.count := rfl
  rw [hl]
  split_ifs with hc'
  · exact .ret ⟨by simp [CanDelay, hc'], rfl⟩
  refine .bind (total_cas trivial (fun hr => .ret ⟨?_, rfl⟩) fun hr => .ret ⟨?_, rfl⟩)
  · exact ⟨fun _ => ⟨hd, not_not.mp hc, not_not.mp hc', hr⟩, fun _ => rfl⟩
  · exact ⟨fun h => (Bool.false_ne_true h).elim, fun h => (hr h.2.2.2).elim⟩

/-! ### What the two calls have in common -/

/-- The checks at the beginning of a call. -/
def guarded (l : Location) (p : Call Result) : Call Result := do
  if !verifyParam l then
    return .error
  let found ← load (registeredAt l.nodeId)
  if !found then
    return .error
  p

theorem total_guarded_unknown {p : Call Result} {Q : Result → Mem → Prop} (h : ¬ Known l s)
    (hq : Q .error s) : Total (fun _ => True) Q (guarded l p) s := by
  rw [guarded]
  split_ifs with hv
  · exact .ret hq
  refine .bind (total_load trivial ?_)
  split_ifs with hf
  · exact .ret hq
  · have hf : (registeredAt l.nodeId).get s = true := by simpa using hf
    exact absurd ⟨by simpa using hv, hf⟩ h

theorem total_guarded {p : Call Result} {Q : Result → Mem → Prop} (h : Known l s)
    (hp : Total (fun _ => True) Q p s) : Total (fun _ => True) Q (guarded l p) s := by
  rw [guarded, h.1]
  refine .bind (total_load trivial ?_)
  have hf : (registeredAt l.nodeId).get s = true := h.2
  rw [hf]
  exact hp

theorem run_guarded {p : Call Result} (h : Known l s) (hr : Run (guarded l p) s r s') :
    Run p s r s' := by
  rw [guarded, h.1] at hr
  have hr := Run.load hr
  have hf : (registeredAt l.nodeId).get s = true := h.2
  rwa [hf] at hr

/-- What comes after the attempt at a delayed release. -/
def Exclusive.finish (policy : Policy) (l : Location) : Exclusive → Bool → Call Result
  | .x, useDelay => do
    if useDelay then
      store (Local.localIsReserveLock l.nodeId) .x
      store (Local.holdGlobal l.nodeId) false
      store (Local.globalState l.nodeId) .idle
      LocalLock.unlockX policy.recursive l
    else
      let owned ← releaseX policy l
      if !owned then
        return .error
      store (Local.globalState l.nodeId) .idle
      LocalLock.unlockX policy.recursive l
  | .sx, useDelay => do
    if useDelay then
      store (Local.localIsReserveLock l.nodeId) .sx
      store (Local.holdGlobal l.nodeId) false
      store (Local.globalState l.nodeId) .idle
      LocalLock.unlockSx policy.recursive l
    else
      match ← releaseSx policy l with
      | none => return .error
      | some false => return .success
      | some true =>
        store (Local.globalState l.nodeId) .idle
        LocalLock.unlockSx policy.recursive l

theorem unlock_eq :
    e.unlock policy l = guarded l ((tryDelay policy l).bind (e.finish policy l)) := by
  cases e <;> rfl

/-! ### Calls that are turned away -/

theorem rejected_of_other (hd : ¬ CanDelay policy l s) (ho : e.owner s.shm ≠ makeGlobalOwner l) :
    Rejected e policy l s := by
  rw [Rejected, unlock_eq]
  by_cases hk : Known l s
  · refine total_guarded hk (.bind (total_tryDelay.mono ?_))
    rintro b s' ⟨hb, hs'⟩
    cases b with
    | true => exact absurd (hb.mp rfl) hd
    | false =>
      have hs' : s' = s := hs'
      subst hs'
      cases e with
      | x =>
        have hx : Shm.lockOwnerX.get s' ≠ makeGlobalOwner l := ho
        refine .bind (.bind (total_load trivial ?_))
        rw [if_pos hx]
        exact .ret (.ret ⟨rfl, .refl _ _⟩)
      | sx =>
        have hsx : Shm.lockOwnerSx.get s' ≠ makeGlobalOwner l := ho
        refine .bind (.bind (total_load trivial ?_))
        rw [if_pos hsx]
        exact .ret (.ret ⟨rfl, .refl _ _⟩)
  · exact total_guarded_unknown hk ⟨rfl, .refl _ _⟩

/-! ### Calls that change the lock -/

/-- Owner or depth are no longer what they were. -/
def Exclusive.Moved (e : Exclusive) (s s' : Mem) : Prop :=
  e.owner s'.shm ≠ e.owner s.shm ∨ e.depth s'.shm ≠ e.depth s.shm

theorem Exclusive.Moved.global {m : Mem} (h : e.Moved s m) (hs : SameGlobal m s') : e.Moved s s' := by
  have ho : e.owner s'.shm = e.owner m.shm := by
    have := congrArg e.owner hs.shm
    cases e <;> exact this
  have hd : e.depth s'.shm = e.depth m.shm := by
    have := congrArg e.depth hs.shm
    cases e <;> exact this
  rw [Moved, ho, hd]
  exact h

theorem Exclusive.Moved.not_unchanged (h : e.Moved s s') : ¬ Unchanged l.nodeId s s' := by
  intro hu
  cases e with
  | x => exact h.elim (· hu.lockOwnerX) (· hu.xRecursive)
  | sx => exact h.elim (· hu.lockOwnerSx) (· hu.sxRecursive)

theorem run_fetch {p : Place Mem ℕ} {f : ℕ → ℕ} {old : ℕ} (hr : Run (fetch p f : Call ℕ) s old s') :
    old = p.get s ∧ s' = p.set (f (p.get s)) s := by
  have hr : Run ((fetch p f : Call ℕ).bind .ret) s old s' := hr
  cases hr.rmw
  exact ⟨rfl, rfl⟩

theorem u32_pred_ne (n : ℕ) : u32 (n + 4294967295) ≠ n := by
  rw [u32]
  omega

/-- What `fetch_sub` returns and leaves, when it is called at all. -/
theorem run_pop {p : Place Mem ℕ} {old : ℕ}
    (hr : Run (if policy.recursive then LocalLock.popDepth p else pure 1 : Call ℕ) s old s') :
    (s' = s ∧ old = 1) ∨ ∃ v, v ≠ p.get s ∧ s' = p.set v s := by
  split_ifs at hr
  · have hs := (run_fetch hr).2
    exact .inr ⟨_, u32_pred_ne _, hs⟩
  · cases hr
    exact .inl ⟨rfl, rfl⟩

/-- The owner's release takes one level off, or clears the owner. -/
theorem run_releaseX {b : Bool} (hn : l.nodeId.val < ubMaxNodes)
    (ho : s.shm.lockOwnerX = makeGlobalOwner l) (hr : Run (releaseX policy l) s b s') :
    b = true ∧ Exclusive.x.Moved s s' := by
  have hinv : lockInvalidOwner ≠ s.shm.lockOwnerX := ho ▸ (makeGlobalOwner_ne_invalid hn).symm
  have hget : Shm.lockOwnerX.get s = makeGlobalOwner l := ho
  rw [releaseX] at hr
  have hr := hr.load
  rw [if_neg (not_not.mpr hget)] at hr
  obtain ⟨old, s₁, hpop, hr⟩ := hr.of_bind
  split_ifs at hr with hold
  · cases hr
    rcases run_pop hpop with ⟨-, rfl⟩ | ⟨v, hv, rfl⟩
    · omega
    · exact ⟨rfl, .inr hv⟩
  · -- once the owner is cleared, only a wake-up follows
    obtain ⟨_, s₂, hwake, hr⟩ := hr.store.store.store.store.store.of_bind
    cases hr
    have hquiet : SameGlobal _ s' := hwake.quiet Hides.refl (fun h h' => h'.trans h) (quiet_wakeIfWaiting l)
    have hs : s'.shm.lockOwnerX = lockInvalidOwner := congrArg UbRwLock.lockOwnerX hquiet.shm
    exact ⟨rfl, .inl fun h => hinv (hs.symm.trans h)⟩

theorem run_releaseSx {b : Option Bool} (hn : l.nodeId.val < ubMaxNodes)
    (ho : s.shm.lockOwnerSx = makeGlobalOwner l) (hr : Run (releaseSx policy l) s b s') :
    b ≠ none ∧ Exclusive.sx.Moved s s' := by
  have hinv : lockInvalidOwner ≠ s.shm.lockOwnerSx := ho ▸ (makeGlobalOwner_ne_invalid hn).symm
  have hget : Shm.lockOwnerSx.get s = makeGlobalOwner l := ho
  rw [releaseSx] at hr
  have hr := hr.load
  rw [if_neg (not_not.mpr hget)] at hr
  obtain ⟨old, s₁, hpop, hr⟩ := hr.of_bind
  split_ifs at hr with hold
  · cases hr
    rcases run_pop hpop with ⟨-, rfl⟩ | ⟨v, hv, rfl⟩
    · omega
    · exact ⟨Option.some_ne_none _, .inr hv⟩
  · obtain ⟨goOn, s₂, hwake, hr⟩ := hr.store.store.store.store.rmw.of_bind
    cases hr
    have hquiet : SameGlobal _ s' := hwake.quiet Hides.refl (fun h h' => h'.trans h) (quiet_wakeAfterSx _ l)
    have hs : s'.shm.lockOwnerSx = lockInvalidOwner := congrArg UbRwLock.lockOwnerSx hquiet.shm
    exact ⟨Option.some_ne_none _, .inl fun h => hinv (hs.symm.trans h)⟩

/-- With the delayed release open, the caller is entered as the owner of the reservation. -/
theorem run_finish_delay (hr : Run (e.finish policy l true) s r s') :
    s'.shm.reserveLockOwner = s.shm.reserveLockOwner := by
  cases e with
  | x =>
    have hquiet : SameGlobal _ s' := hr.store.store.store.quiet Hides.refl (fun h h' => h'.trans h)
      (LocalLock.quiet_unlockX policy.recursive l)
    have hres := congrArg UbRwLock.reserveLockOwner hquiet.shm
    exact hres
  | sx =>
    have hquiet : SameGlobal _ s' := hr.store.store.store.quiet Hides.refl (fun h h' => h'.trans h)
      (LocalLock.quiet_unlockSx policy.recursive l)
    have hres := congrArg UbRwLock.reserveLockOwner hquiet.shm
    exact hres

theorem run_finish_release (hn : l.nodeId.val < ubMaxNodes) (ho : e.owner s.shm = makeGlobalOwner l)
    (hr : Run (e.finish policy l false) s r s') : e.Moved s s' := by
  cases e with
  | x =>
    obtain ⟨owned, s₁, hrel, hr⟩ := Run.of_bind hr
    obtain ⟨rfl, hmoved⟩ := run_releaseX hn ho hrel
    have hquiet : SameGlobal _ s' := Run.quiet Hides.refl (fun h h' => h'.trans h) (Run.store hr)
      (LocalLock.quiet_unlockX policy.recursive l)
    exact Exclusive.Moved.global (m := (Local.globalState l.nodeId).set .idle s₁) hmoved hquiet
  | sx =>
    obtain ⟨goOn, s₁, hrel, hr⟩ := Run.of_bind hr
    obtain ⟨hsome, hmoved⟩ := run_releaseSx hn ho hrel
    cases goOn with
    | none => exact absurd rfl hsome
    | some goOn =>
      cases goOn with
      | false =>
        cases hr
        exact hmoved
      | true =>
        have hquiet : SameGlobal _ s' := Run.quiet Hides.refl (fun h h' => h'.trans h) (Run.store hr)
          (LocalLock.quiet_unlockSx policy.recursive l)
        exact Exclusive.Moved.global (m := (Local.globalState l.nodeId).set .idle s₁) hmoved hquiet

/-- A call that gets past its checks and finds the delayed release open, or its own name as the
    owner's, does not leave the lock as it was. -/
theorem changed_of_run (hk : Known l s) (h : CanDelay policy l s ∨ e.owner s.shm = makeGlobalOwner l)
    (hr : Run (e.unlock policy l) s r s') : ¬ Unchanged l.nodeId s s' := by
  have hn : l.nodeId.val < ubMaxNodes := of_decide_eq_true hk.1
  rw [unlock_eq] at hr
  obtain ⟨b, s₁, hdelay, hfinish⟩ := (run_guarded hk hr).of_bind
  obtain ⟨hb, hs₁⟩ := total_tryDelay.sound hdelay
  cases b with
  | true =>
    have hs₁ : s₁ = Shm.reserveLockOwner.set (makeGlobalOwner l) s := hs₁
    subst hs₁
    have hres : s'.shm.reserveLockOwner = makeGlobalOwner l := run_finish_delay hfinish
    intro hu
    exact makeGlobalOwner_ne_invalid hn (hres.symm.trans (hu.reserveLockOwner.trans (hb.mp rfl).2.2.2))
  | false =>
    have hs₁ : s₁ = s := hs₁
    subst hs₁
    have ho := h.resolve_left fun hd => Bool.false_ne_true (hb.mpr hd)
    exact (run_finish_release hn ho hfinish).not_unchanged

/-- An exclusive unlock is turned away without a trace exactly if it fails its first checks, or the
    delayed release is not open and the lock is not registered under the caller's name. -/
theorem rejected_iff (e : Exclusive) (policy : Policy) (l : Location) (s : Mem) :
    Rejected e policy l s ↔
      (Known l s → ¬ CanDelay policy l s ∧ e.owner s.shm ≠ makeGlobalOwner l) := by
  constructor
  · intro h hk
    obtain ⟨r, s', hr, -, hu⟩ := h.exists_run
    refine ⟨fun hd => ?_, fun ho => ?_⟩
    · exact changed_of_run hk (.inl hd) hr hu
    · exact changed_of_run hk (.inr ho) hr hu
  · intro h
    by_cases hk : Known l s
    · exact rejected_of_other (h hk).1 (h hk).2
    · rw [Rejected, unlock_eq]
      exact total_guarded_unknown hk ⟨rfl, .refl _ _⟩

/-! ### S -/

/-- What a rejected `unlock_s` on node `n` has to leave alone. -/
structure KeepsS (n : NodeId) (s s' : Mem) : Prop where
  lockWord : s'.shm.lockWord = s.shm.lockWord
  sharedOwnerBitmap : s'.shm.sharedOwnerBitmap = s.shm.sharedOwnerBitmap
  globalReadRefCount : (s'.ll n).globalReadRefCount = (s.ll n).globalReadRefCount
  globalState : (s'.ll n).globalState = (s.ll n).globalState
  localWord : (s'.ll n).lockWord = (s.ll n).lockWord

/-- `unlock_s` returns, with an error, and has changed nothing. -/
def RejectedS (policy : Policy) (l : Location) (s : Mem) : Prop :=
  Total (fun _ => True) (fun r s' => r = .error ∧ KeepsS l.nodeId s s') (unlockS policy l) s

/-- The lane that the caller shares with every fourth thread shows a reader, and the node counts
    one. -/
def SeesReader (l : Location) (s : Mem) : Prop :=
  ((s.ll l.nodeId).lockWord (laneForTid l.tid)).sentinel = false ∧
    ((s.ll l.nodeId).lockWord (laneForTid l.tid)).count ≠ 0 ∧
    0 < (s.ll l.nodeId).globalReadRefCount

/-- `unlock_s` behind its first checks. -/
def leaveS (policy : Policy) (l : Location) : Call Result := do
  let state ← load (Local.lockWord l.nodeId)
  let lane := state (laneForTid l.tid)
  if lane.sentinel ∨ lane.count = 0 then
    return .error
  let oldRef ← fetch (Local.globalReadRefCount l.nodeId) (· - 1)
  if oldRef > 1 then
    LocalLock.unlockS l
  else if oldRef ≤ 0 then
    let _ ← fetchAt (.refCompensate l.nodeId) (Local.globalReadRefCount l.nodeId) (· + 1)
    return .error
  else
    let ret ← releaseS policy l
    if ret ≠ .success then
      return .error
    store (Local.holdGlobal l.nodeId) false
    let _ ← cas (Local.globalState l.nodeId) .held .idle
    notifyPending l.nodeId
    store (Local.readCount l.nodeId) 0
    LocalLock.unlockS l

theorem unlockS_eq : unlockS policy l = guarded l (leaveS policy l) := rfl

theorem rejectedS_of_none (h : ¬ SeesReader l s) : RejectedS policy l s := by
  rw [RejectedS, unlockS_eq]
  by_cases hk : Known l s
  · refine total_guarded hk (.bind (total_load trivial ?_))
    dsimp only
    split_ifs with hlane
    · exact .ret ⟨rfl, rfl, rfl, rfl, rfl, rfl⟩
    have hlane : ((s.ll l.nodeId).lockWord (laneForTid l.tid)).sentinel = false ∧
        ((s.ll l.nodeId).lockWord (laneForTid l.tid)).count ≠ 0 := by
      simpa [Local.lockWord, Local.field] using hlane
    have href : (s.ll l.nodeId).globalReadRefCount ≤ 0 := by
      by_contra hpos
      exact h ⟨hlane.1, hlane.2, not_le.mp hpos⟩
    refine .bind (total_rmw trivial ?_)
    have hget : (Local.globalReadRefCount l.nodeId).get s = (s.ll l.nodeId).globalReadRefCount := rfl
    dsimp only
    rw [hget, if_neg (by omega), if_pos href]
    refine .bind (total_rmw trivial (.ret ⟨rfl, ?_⟩))
    constructor <;> simp [Local.globalReadRefCount, Local.field]
  · exact total_guarded_unknown hk ⟨rfl, rfl, rfl, rfl, rfl, rfl⟩

section Counted

variable {m : Mem} {a : UbRwLock} {k : LocalLock}

/-- Whatever becomes of the unit of `lock_word`, only the token of the node changes with it. -/
theorem ends_releaseS_local (hn : l.nodeId.val < ubMaxNodes) :
    Alone.Ends (releaseS policy l) (fun _ m' => ∃ a' mode,
      m' = m.put l.nodeId a' { k with localIsReserveLock := mode }) (m.put l.nodeId a k) := by
  refine wp_bind (wp_mono (Alone.ends_tryDelay policy) ?_)
  rintro b _ - (⟨rfl, -, -, rfl⟩ | ⟨rfl, rfl⟩)
  · exact wp_bind (Alone.storeLocal ⟨trivial, _, .s, rfl⟩)
  refine wp_bind (Alone.storeLocal ?_)
  refine wp_bind (Alone.fetchShm ?_)
  split
  · exact wp_bind (Alone.fetchShm ⟨trivial, _, .i, rfl⟩)
  have hclear : Alone.Ends ((clearSharedOwnerBitmap l.nodeId).bind fun _ => .ret Result.success)
      (fun _ m' => ∃ a' mode, m' = m.put l.nodeId a' { k with localIsReserveLock := mode })
      (m.put l.nodeId { a with lockWord := a.lockWord + 1 } { k with localIsReserveLock := .i }) :=
    wp_bind (wp_mono (Alone.ends_clearSharedOwnerBitmap hn) fun _ _ _ h => ⟨trivial, _, .i, h⟩)
  split
  · exact Alone.ends_quiet (quiet_wakeIfWaiting l) fun _ => hclear
  · exact hclear

/-- With a reader in the lane and on the node, `unlock_s` counts one reader less. -/
theorem ends_leaveS (policy : Policy) (hn : l.nodeId.val < ubMaxNodes)
    (hs : (k.lockWord (laneForTid l.tid)).sentinel = false)
    (hc : (k.lockWord (laneForTid l.tid)).count ≠ 0) (href : 0 < k.globalReadRefCount) :
    Alone.Ends (leaveS policy l)
      (fun _ m' => (m'.ll l.nodeId).globalReadRefCount = k.globalReadRefCount - 1)
      (m.put l.nodeId a k) := by
  have hread : ∀ a' k', ((m.put l.nodeId a' k').ll l.nodeId) = k' := fun a' k' =>
    Function.update_self ..
  have hleave : ∀ a' k', k'.lockWord = k.lockWord →
      k'.globalReadRefCount = k.globalReadRefCount - 1 → Alone.Ends (LocalLock.unlockS l)
        (fun _ m' => (m'.ll l.nodeId).globalReadRefCount = k.globalReadRefCount - 1)
        (m.put l.nodeId a' k') := by
    intro a' k' hword hr
    refine wp_mono (Alone.ends_localUnlockS (by rwa [hword]) (by rwa [hword])) ?_
    rintro r _ - ⟨-, rfl⟩
    rw [hread]
    exact hr
  refine wp_bind (Alone.loadLocal ?_)
  dsimp only
  rw [if_neg (by simp [hs, hc])]
  refine wp_bind (Alone.rmwLocal ?_)
  dsimp only
  split_ifs with hmore hnone
  · exact hleave _ _ rfl rfl
  · omega
  refine wp_bind (wp_mono (ends_releaseS_local hn) ?_)
  rintro r _ - ⟨a', mode, rfl⟩
  split_ifs with hr
  · exact ⟨trivial, congrArg LocalLock.globalReadRefCount (hread _ _)⟩
  refine wp_bind (Alone.storeLocal ?_)
  have htail : ∀ state, Alone.Ends (do
      notifyPending l.nodeId
      store (Local.readCount l.nodeId) 0
      LocalLock.unlockS l)
      (fun _ m' => (m'.ll l.nodeId).globalReadRefCount = k.globalReadRefCount - 1)
      (m.put l.nodeId a' { k with
        globalReadRefCount := k.globalReadRefCount - 1, localIsReserveLock := mode
        holdGlobal := false, globalState := state }) := by
    intro state
    refine Alone.ends_quiet (quiet_notifyPending _) fun _ => ?_
    refine Alone.ends_quiet (.write trivial fun _ => hides_local rfl) fun _ => ?_
    exact hleave _ _ rfl rfl
  exact wp_bind (Alone.casLocal (fun _ => htail .idle) fun _ => htail k.globalState)

end Counted

/-- An `unlock_s` is turned away without a trace exactly if it fails its first checks, or finds no
    reader in its lane or none counted on the node; who the readers of the lane are is not known. -/
theorem sharedRejected_iff (policy : Policy) (l : Location) (s : Mem) :
    RejectedS policy l s ↔ (Known l s → ¬ SeesReader l s) := by
  constructor
  · rintro h hk ⟨hs, hc, href⟩
    obtain ⟨r, s', hr, -, hkeep⟩ := h.exists_run
    rw [unlockS_eq] at hr
    have hn : l.nodeId.val < ubMaxNodes := of_decide_eq_true hk.1
    have hend := ends_leaveS policy (m := s.face) (a := s.face.shm)
      (k := s.face.ll l.nodeId) hn hs hc href
    rw [Mem.put_self] at hend
    have hless : (s'.ll l.nodeId).globalReadRefCount = (s.ll l.nodeId).globalReadRefCount - 1 :=
      (run_guarded hk hr).sound hend
    have hsame := hkeep.globalReadRefCount
    omega
  · intro h
    by_cases hk : Known l s
    · exact rejectedS_of_none (h hk)
    · rw [RejectedS, unlockS_eq]
      exact total_guarded_unknown hk ⟨rfl, rfl, rfl, rfl, rfl, rfl⟩

/-- What the undisturbed call leads to. -/
theorem run_of_any {p : Call Result} {P : Result × Mem → Bool} (h : (p.exec 1000 s).any P = true) :
    ∃ r s', Run p s r s' ∧ P (r, s') = true := by
  obtain ⟨⟨r, s'⟩, hr, hp⟩ := (Option.any_eq_true _ _).mp h
  exact ⟨r, s', run_of_exec hr, hp⟩

/-- Thread 5 of node 0 unlocks X and SX of a lock that nobody has ever taken, and leaves a token
    behind each time. A thread that has released X with delay unlocks it once more: the call fails,
    and frees a lock word that its reservation still names. -/
theorem rejection_violated :
    (∃ s', Run (unlockX Ledger.delayed ⟨5, 0⟩) Ledger.fresh.mem .error s' ∧
      s'.shm.reserveLockOwner = makeGlobalOwner ⟨5, 0⟩ ∧ (s'.ll 0).localIsReserveLock = .x) ∧
    (∃ s', Run (unlockSx Ledger.delayed ⟨5, 0⟩) Ledger.fresh.mem .error s' ∧
      s'.shm.reserveLockOwner = makeGlobalOwner ⟨5, 0⟩ ∧ (s'.ll 0).localIsReserveLock = .sx) ∧
    ∃ x s', Boundary.History (Ledger.client Ledger.nonRecursive) (fun _ _ e r => Ledger.Locks e r)
        Ledger.fresh x ∧ x.held (.app ⟨1, 0⟩) = .none ∧ Run (unlockX .base ⟨1, 0⟩) x.mem .error s' ∧
      x.mem.shm.lockWord = 0 ∧ s'.shm.lockWord = 65536 ∧
      s'.shm.reserveLockOwner = makeGlobalOwner ⟨1, 0⟩ := by
  refine ⟨?_, ?_, ?_⟩
  · obtain ⟨r, s', hr, hp⟩ := run_of_any (p := unlockX Ledger.delayed ⟨5, 0⟩) (s := Ledger.fresh.mem)
      (P := fun o => o.1 = .error ∧ o.2.shm.reserveLockOwner = makeGlobalOwner ⟨5, 0⟩ ∧
        (o.2.ll 0).localIsReserveLock = .x) (by decide +kernel)
    obtain ⟨rfl, hp⟩ := of_decide_eq_true hp
    exact ⟨s', hr, hp⟩
  · obtain ⟨r, s', hr, hp⟩ := run_of_any (p := unlockSx Ledger.delayed ⟨5, 0⟩) (s := Ledger.fresh.mem)
      (P := fun o => o.1 = .error ∧ o.2.shm.reserveLockOwner = makeGlobalOwner ⟨5, 0⟩ ∧
        (o.2.ll 0).localIsReserveLock = .sx) (by decide +kernel)
    obtain ⟨rfl, hp⟩ := of_decide_eq_true hp
    exact ⟨s', hr, hp⟩
  · obtain ⟨x, hx, hheld, hword, hany⟩ := Boundary.history_of_play (Ledger.client Ledger.nonRecursive)
      (fun _ _ e r => Ledger.Locks e r) Ledger.fresh
      [(.app ⟨1, 0⟩, .call (.lockX .base)), (.app ⟨1, 0⟩, .call (.unlockX Ledger.delayed))]
      (fun x => x.held (.app ⟨1, 0⟩) = .none ∧ x.mem.shm.lockWord = 0 ∧
        ((unlockX .base ⟨1, 0⟩).exec 1000 x.mem).any (fun o => o.1 = .error ∧
          o.2.shm.lockWord = 65536 ∧ o.2.shm.reserveLockOwner = makeGlobalOwner ⟨1, 0⟩) = true)
      (by decide +kernel)
    obtain ⟨r, s', hr, hp⟩ := run_of_any hany
    obtain ⟨rfl, hp⟩ := of_decide_eq_true hp
    exact ⟨x, s', hx, hheld, hr, hword, hp⟩

/-- Threads 1 and 5 of node 0 have the same lane. Thread 1 holds S, thread 5 holds nothing and
    unlocks: the call succeeds, and the lock is free although thread 1 still holds S. -/
theorem sharedRejection_violated :
    ∃ x s', Boundary.History (Ledger.client Ledger.nonRecursive) (fun _ _ e r => Ledger.Locks e r)
        Ledger.fresh x ∧ x.held (.app ⟨5, 0⟩) = .none ∧ (x.held (.app ⟨1, 0⟩)).s = 1 ∧
      Run (unlockS .base ⟨5, 0⟩) x.mem .success s' ∧ s'.shm.lockWord = 65536 ∧
      (s'.ll 0).lockWord = .zero := by
  obtain ⟨x, hx, h5, h1, hany⟩ := Boundary.history_of_play (Ledger.client Ledger.nonRecursive)
    (fun _ _ e r => Ledger.Locks e r) Ledger.fresh [(.app ⟨1, 0⟩, .call .lockS)]
    (fun x => x.held (.app ⟨5, 0⟩) = .none ∧ (x.held (.app ⟨1, 0⟩)).s = 1 ∧
      ((unlockS .base ⟨5, 0⟩).exec 1000 x.mem).any (fun o => o.1 = .success ∧
        o.2.shm.lockWord = 65536 ∧ (o.2.ll 0).lockWord = .zero) = true)
    (by decide +kernel)
  obtain ⟨r, s', hr, hp⟩ := run_of_any hany
  obtain ⟨rfl, hp⟩ := of_decide_eq_true hp
  exact ⟨x, s', hx, h5, h1, hr, hp⟩

end Rejection

end UbsAtomic
