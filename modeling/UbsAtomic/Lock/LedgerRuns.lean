import UbsAtomic.Lock.Ledger

/-! The calls keep the ledger.

    One lemma per call says that a successful call, made alone on a memory that agrees with the
    ledger, leaves a memory that agrees with it again. What it does to the token of its node:

        lock_s, lock_sx, lock_x      inherit it, or give it back and take the lock anew
        unlock_s, unlock_sx, unlock_x    leave one if the release is delayed
        RELEASE                      gives it back

    Three of these overwrite the token field without looking at it, and `lock_s` overwrites the
    reference count. The hypotheses of the lemmas say when nothing is lost by that. -/

namespace UbsAtomic

open Conc Conc.Prog

namespace Ledger

open Alone

section Calls

variable {m : Mem} {held : Actor → Holds} {o o' : Token} {l : Location} {n : NodeId} {mode : Mode}
  {a : UbRwLock} {tidy : Prop}

/-! ### The token of a node -/

theorem eq_of_tokenAt (h : tokenAt o n = mode) (hi : mode ≠ .i) : o = some (n, mode) := by
  subst h
  cases o with
  | none => exact absurd rfl hi
  | some t =>
    obtain ⟨i, mode⟩ := t
    by_cases hin : i = n
    · simp [tokenAt, hin]
    · simp [tokenAt, hin] at hi

theorem GlobOk.ne_of_tokenAt (h : GlobOk a held o) (ht : tokenAt o n = .i) (mode : Mode) :
    o ≠ some (n, mode) := by
  rintro rfl
  refine (h.reserved n mode rfl).1 ?_
  simpa [tokenAt] using ht

theorem tokenAt_some_ne (hn : n ≠ l.nodeId) : tokenAt (some (l.nodeId, mode)) n = .i := by
  simp [tokenAt, Ne.symm hn]

/-- Starting from a free reservation there is no token. -/
theorem GlobOk.none_of_free (h : GlobOk a held o) (hv : a.reserveLockOwner = lockInvalidOwner) :
    o = none := by
  cases o with
  | none => rfl
  | some t => exact absurd hv (h.reserved t.1 t.2 rfl).2.ne_invalid

/-- A call that runs from `m` runs from `m` with its own parts put back. -/
theorem ends_of_put {α : Type} {p : Call α} {Q : α → Mem → Prop} (n : NodeId)
    (h : Ends p Q (m.put n m.shm (m.ll n))) : Ends p Q m := by
  rwa [Mem.put_self] at h

/-- A token that is there can be given back. -/
theorem Ok.give_back (h : Ok m held o tidy) (hn : n.val < ubMaxNodes)
    (hi : (m.ll n).localIsReserveLock ≠ .i) :
    o = some (n, (m.ll n).localIsReserveLock) ∧
      GlobOk (Alone.giveBack n m.shm (m.ll n).localIsReserveLock) held none := by
  have htok : o = some (n, (m.ll n).localIsReserveLock) :=
    eq_of_tokenAt (h.node n).token.symm hi
  refine ⟨htok, GlobOk.giveBack ?_ hn⟩
  rw [← htok]
  exact h.glob

/-- The ledger once a lock call has looked at the token of its node. -/
theorem Ok.redeem (h : Ok m held o tidy) (hn : n.val < ubMaxNodes) :
    ∃ o', GlobOk (Alone.redeem n m.shm (m.ll n).localIsReserveLock) held o' ∧ tokenAt o' n = .i ∧
      (∀ i, i ≠ n → tokenAt o' i = tokenAt o i) ∧ (o = none → o' = none) := by
  by_cases hi : (m.ll n).localIsReserveLock = .i
  · rw [Alone.redeem, if_pos hi]
    exact ⟨o, h.glob, (h.node n).token.symm.trans hi, fun _ _ => rfl, id⟩
  · obtain ⟨htok, hglob⟩ := h.give_back hn hi
    rw [Alone.redeem, if_neg hi]
    refine ⟨none, hglob, rfl, fun i hne => ?_, fun _ => rfl⟩
    rw [htok]
    simp [tokenAt, Ne.symm hne]

/-! ### S -/

theorem lockS_ledger (h : Ok m held o tidy) (hn : l.nodeId.val < ubMaxNodes)
    (hc : (m.ll l.nodeId).globalReadRefCount = 0 ∨ (m.ll l.nodeId).globalState = .held) :
    Ends (lockS l) (fun r m' => r = .success → ∃ o', (o = none → o' = none) ∧
      Ok m' (Function.update held (.app l)
        { held (.app l) with s := (held (.app l)).s + 1 }) o' tidy) m := by
  have hk := h.node l.nodeId
  refine ends_of_put l.nodeId ?_
  refine wp_mono (ends_lockS hn (h.created _ hn) h.glob.reservable) ?_
  rintro r _ - ⟨hyes, -⟩ hs
  obtain ⟨hx, ⟨hstate, href, rfl⟩ | ⟨hidle, a', ha', rfl⟩⟩ := hyes hs
  · -- a follower: the node has its unit already
    rw [hk.ref] at href
    refine ⟨o, id, h.step id (fun _ _ => rfl) ?_ (h.glob.sameUnit rfl rfl href ?_)⟩
    · rw [← hk.token]
      exact hk.addS hx (congrArg (· + 1) hk.ref) hk.settled
    · rw [onNode_gainS]
      omega
  -- a leader: nobody of the node has S
  have hzero : onNode l.nodeId nS held = 0 := by
    rw [← hk.ref]
    refine hc.resolve_right fun hheld => ?_
    rw [hidle] at hheld
    cases hheld
  have hnode : NodeOk l.nodeId
      { addReader (laneForTid l.tid) (m.ll l.nodeId) with
        globalReadRefCount := 1, holdGlobal := true, globalState := .held, localIsReserveLock := .i }
      (Function.update held (.app l) { held (.app l) with s := (held (.app l)).s + 1 }) .i
      tidy :=
    hk.addS hx (by rw [hzero]; rfl) (by decide)
  rcases ha' with ⟨hmode, rfl⟩ | ⟨-, hpos, rfl⟩
  · -- the token of an S
    have htok : o = some (l.nodeId, .s) :=
      eq_of_tokenAt (hk.token.symm.trans hmode) (by decide)
    subst htok
    exact ⟨none, fun _ => rfl, h.step id (fun n hne => (tokenAt_some_ne hne).symm) hnode
      (h.glob.inheritS hn)⟩
  · -- a unit of the word
    obtain ⟨o', hglob, htok, hother, hnone⟩ := h.redeem hn
    refine ⟨o', hnone, h.step id hother ?_ (hglob.leadS hn (hglob.ne_of_tokenAt htok _) hzero hpos)⟩
    rw [htok]
    exact hnode

/-- What a thread that holds S knows of its node and of the word. -/
theorem Ok.of_s (h : Ok m held o tidy) (hs : 0 < (held (.app l)).s) :
    onNode l.nodeId nX held = 0 ∧ ((m.ll l.nodeId).lockWord (laneForTid l.tid)).sentinel = false ∧
      ((m.ll l.nodeId).lockWord (laneForTid l.tid)).count ≠ 0 ∧ m.shm.lockWord + 1 ≤ xLockDecr := by
  have hu : unit held o l.nodeId = 1 := unit_eq_one (.inl (pos_onNode_s hs))
  have hno : onNode l.nodeId nX held = 0 := by
    have h1 := (h.glob.no_x_of_unit hu).1
    have h2 := onNode_le_total (γ := held) nX_nonneg l.nodeId
    have h3 := onNode_nonneg (γ := held) nX_nonneg l.nodeId
    omega
  obtain ⟨hc, hsen, -⟩ := (h.node l.nodeId).lanes hno (laneForTid l.tid)
  refine ⟨hno, hsen, ?_, ?_⟩
  · have hle := le_onLane (γ := held) nS_nonneg l
    simp only [nS] at hle
    omega
  · have h1 := unit_le_sum held o l.nodeId
    have h2 := total_nonneg (γ := held) nX_nonneg
    have h3 := kept_nonneg .x o
    have h4 := total_nonneg (γ := held) nSx_nonneg
    have h5 := kept_nonneg .sx o
    have h6 := h.glob.word
    simp only [xLockDecr, xLockHalfDecr] at h6 ⊢
    omega

theorem unlockS_ledger (p : Policy) (h : Ok m held o tidy) (hn : l.nodeId.val < ubMaxNodes)
    (hs : 0 < (held (.app l)).s)
    (ht : (m.ll l.nodeId).globalReadRefCount = 1 → (m.ll l.nodeId).localIsReserveLock = .i) :
    Ends (unlockS p l) (fun r m' => r = .success ∧
      ∃ o', (p.allowDelayRelease = false → o = none → o' = none) ∧
        Ok m' (Function.update held (.app l)
          { held (.app l) with s := (held (.app l)).s - 1 }) o' tidy) m := by
  have hk := h.node l.nodeId
  obtain ⟨hno, hsen, hcount, hword⟩ := h.of_s hs
  have href : 0 < (m.ll l.nodeId).globalReadRefCount := by
    rw [hk.ref]
    exact pos_onNode_s hs
  refine ends_of_put l.nodeId ?_
  refine wp_mono (ends_unlockS p hn (h.created _ hn) hsen hcount href hword) ?_
  rintro r _ - ⟨hr, ⟨hmore, rfl⟩ | ⟨hone, state, hstate, hlast⟩⟩
  · -- other S of the node remain
    rw [hk.ref] at hmore
    refine ⟨hr, o, fun _ => id, h.step id (fun _ _ => rfl) ?_
      (h.glob.sameUnit rfl rfl (pos_onNode_s hs) ?_)⟩
    · rw [← hk.token]
      refine hk.dropS hno hs (congrArg (· - 1) hk.ref) hk.settled fun h0 => ?_
      rw [hk.ref] at h0
      omega
    · rw [onNode_loseS hs]
      omega
  · -- the last S of the node
    have hone' : onNode l.nodeId nS held = 1 := hk.ref.symm.trans hone
    have hidle : state = .idle := by
      rcases hstate with rfl | ⟨rfl, hne⟩
      · rfl
      · cases hst : (m.ll l.nodeId).globalState with
        | idle => rfl
        | pending => exact absurd hst hk.settled
        | held => exact absurd hst hne
    have hnode : ∀ mode, NodeOk l.nodeId
        { dropReader (laneForTid l.tid) (m.ll l.nodeId) with
          globalReadRefCount := 0, localIsReserveLock := mode, holdGlobal := false
          globalState := state }
        (Function.update held (.app l) { held (.app l) with s := (held (.app l)).s - 1 }) mode
        tidy :=
      fun mode => hk.dropS hno hs (by rw [hone']; rfl) (by rw [hidle]; decide) fun _ => hidle
    rcases hlast with ⟨hp, hv, rfl⟩ | rfl
    · obtain rfl := h.glob.none_of_free hv
      refine ⟨hr, some (l.nodeId, .s), fun hp' => ?_, h.step id (fun n hne => ?_) ?_
        (h.glob.delayS hn hs hone')⟩
      · rw [hp] at hp'
        cases hp'
      · rw [tokenAt_some_ne hne]
        rfl
      · simpa [tokenAt] using hnode .s
    · have htok : tokenAt o l.nodeId = .i := hk.token.symm.trans (ht hone)
      refine ⟨hr, o, fun _ => id, h.step id (fun _ _ => rfl) ?_
        (h.glob.dropS hn (h.glob.ne_of_tokenAt htok _) hs hone')⟩
      rw [htok]
      exact hnode .i

/-! ### X -/

theorem lockX_ledger (p : Policy) (hp : p.recursive = false) (h : Ok m held o tidy)
    (hn : l.nodeId.val < ubMaxNodes) :
    Ends (lockX p l) (fun r m' => r = .success → ∃ o', (o = none → o' = none) ∧
      Ok m' (Function.update held (.app l)
        { held (.app l) with x := (held (.app l)).x + 1 }) o' tidy) m := by
  have hk := h.node l.nodeId
  refine ends_of_put l.nodeId ?_
  refine wp_mono (ends_lockX p hn (h.created _ hn) h.glob.reservable) ?_
  rw [hp]
  rintro r _ - ⟨hyes, -⟩ hs
  obtain ⟨k', a', hk', ha', rfl⟩ := hyes hs
  obtain ⟨-, hz, rfl⟩ := hk'.resolve_left (by simp)
  rcases ha' with ⟨hmode, rfl⟩ | ⟨-, -, hrec, -⟩ | ⟨-, -, hfull, rfl⟩
  · have htok : o = some (l.nodeId, .x) := eq_of_tokenAt (hk.token.symm.trans hmode) (by decide)
    subst htok
    exact ⟨none, fun _ => rfl, h.step id (fun n hne => (tokenAt_some_ne hne).symm) (hk.addX hz)
      h.glob.inheritX⟩
  · cases hrec
  · obtain ⟨o', hglob, htok, hother, hnone⟩ := h.redeem hn
    refine ⟨o', hnone, h.step id hother ?_ (hglob.takeX hfull)⟩
    rw [htok]
    exact hk.addX hz

/-- What a thread that holds X knows of its node. -/
theorem GlobOk.alone_on_node (h : GlobOk a held o) (hx : 0 < (held (.app l)).x) :
    (held (.app l)).x = 1 ∧ onNode l.nodeId nX held = 1 ∧ onNode l.nodeId nS held = 0 ∧
      onNode l.nodeId nSx held = 0 := by
  obtain ⟨h1, -, hX, hSx, hunits⟩ := h.sole_x hx
  have hx1 := le_onNode (γ := held) nX_nonneg l
  have hx2 := onNode_le_total (γ := held) nX_nonneg l.nodeId
  have hsx1 := onNode_nonneg (γ := held) nSx_nonneg l.nodeId
  have hsx2 := onNode_le_total (γ := held) nSx_nonneg l.nodeId
  have hone : nX (held (.app l)) = 1 := by
    unfold nX
    omega
  refine ⟨h1, by omega, ?_, by omega⟩
  by_contra hne
  have hpos : 0 < onNode l.nodeId nS held :=
    lt_of_le_of_ne (onNode_nonneg nS_nonneg _) (Ne.symm hne)
  have hu : unit held o l.nodeId = 1 := unit_eq_one (.inl hpos)
  have hle := unit_le_sum held o l.nodeId
  omega

theorem unlockX_ledger (p : Policy) (hp : p.recursive = false) (h : Ok m held o tidy)
    (hn : l.nodeId.val < ubMaxNodes) (hx : 0 < (held (.app l)).x) :
    Ends (unlockX p l) (fun r m' => r = .success ∧
      ∃ o', (p.allowDelayRelease = false → o = none → o' = none) ∧
        Ok m' (Function.update held (.app l)
          { held (.app l) with x := (held (.app l)).x - 1 }) o' tidy) m := by
  have hk := h.node l.nodeId
  obtain ⟨hone, hX, hS, hSx⟩ := h.glob.alone_on_node hx
  obtain rfl := h.glob.token_of_x hx
  refine ends_of_put l.nodeId ?_
  refine wp_mono (ends_unlockX p hn (h.created _ hn) (h.glob.ownX l hx) (hk.ownX l.tid hx)) ?_
  rintro r _ - ⟨hr, ⟨hd, hv, rfl⟩ | ⟨hrec, -⟩ | ⟨-, rfl⟩⟩
  · refine ⟨hr, some (l.nodeId, .x), fun hd' => ?_, h.step id (fun n hne => ?_) ?_
      (h.glob.delayX hn hx)⟩
    · rw [hd] at hd'
      cases hd'
    · rw [tokenAt_some_ne hne]
      rfl
    · rw [hp]
      simpa [tokenAt] using hk.dropX hone hX hS hSx
  · rw [hp] at hrec
    exact absurd hrec.1 (by decide)
  · refine ⟨hr, none, fun _ => id, h.step id (fun _ _ => rfl) ?_ (h.glob.dropX hx)⟩
    rw [hp]
    exact hk.dropX hone hX hS hSx

/-! ### SX -/

theorem lockSx_ledger (p : Policy) (hp : p.recursive = false) (h : Ok m held o tidy)
    (hn : l.nodeId.val < ubMaxNodes) :
    Ends (lockSx p l) (fun r m' => r = .success → ∃ o', (o = none → o' = none) ∧
      Ok m' (Function.update held (.app l)
        { held (.app l) with sx := (held (.app l)).sx + 1 }) o' tidy) m := by
  have hk := h.node l.nodeId
  refine ends_of_put l.nodeId ?_
  refine wp_mono (ends_lockSx p hn (h.created _ hn) h.glob.reservable (by simp [hp])) ?_
  rw [hp]
  rintro r _ - ⟨hyes, -⟩ hs
  obtain ⟨k', a', hk', ha', rfl⟩ := hyes hs
  obtain ⟨-, hx, hf, rfl⟩ := hk'.resolve_left (by simp)
  rcases ha' with ⟨hmode, rfl⟩ | ⟨-, -, hrec, -⟩ | ⟨-, -, hhalf, rfl⟩
  · have htok : o = some (l.nodeId, .sx) := eq_of_tokenAt (hk.token.symm.trans hmode) (by decide)
    subst htok
    exact ⟨none, fun _ => rfl, h.step id (fun n hne => (tokenAt_some_ne hne).symm) (hk.addSx hx hf)
      h.glob.inheritSx⟩
  · cases hrec
  · obtain ⟨o', hglob, htok, hother, hnone⟩ := h.redeem hn
    refine ⟨o', hnone, h.step id hother ?_ (hglob.takeSx hhalf)⟩
    rw [htok]
    exact hk.addSx hx hf

theorem unlockSx_ledger (p : Policy) (hp : p.recursive = false) (h : Ok m held o tidy)
    (hn : l.nodeId.val < ubMaxNodes) (hsx : 0 < (held (.app l)).sx)
    (ht : (m.ll l.nodeId).localIsReserveLock = .i) :
    Ends (unlockSx p l) (fun r m' => r = .success ∧
      ∃ o' tidy', (p.allowDelayRelease = false → o = none → o' = none) ∧
        (((m'.ll l.nodeId).lockWord 0).flag = false → tidy' = tidy) ∧
        Ok m' (Function.update held (.app l)
          { held (.app l) with sx := (held (.app l)).sx - 1 }) o' tidy') m := by
  have hk := h.node l.nodeId
  have htok : tokenAt o l.nodeId = .i := hk.token.symm.trans ht
  obtain ⟨hone, hSx, -, hX⟩ := h.glob.sole_sx hsx
  have hnoX : onNode l.nodeId nX held = 0 := by
    have h1 := onNode_nonneg (γ := held) nX_nonneg l.nodeId
    have h2 := onNode_le_total (γ := held) nX_nonneg l.nodeId
    omega
  have honSx : onNode l.nodeId nSx held = 1 := by
    have h1 := le_onNode (γ := held) nSx_nonneg l
    have h2 := onNode_le_total (γ := held) nSx_nonneg l.nodeId
    have h3 : nSx (held (.app l)) = 1 := by
      unfold nSx
      omega
    omega
  refine ends_of_put l.nodeId ?_
  refine wp_mono (ends_unlockSx p hn (h.created _ hn) (h.glob.ownSx l hsx) (hk.ownSx l.tid hsx)
    (hk.sxFlag (pos_onNode_sx hsx))) ?_
  rintro r _ - ⟨hr, ⟨hd, hv, rfl⟩ | ⟨hrec, -⟩ | ⟨-, rfl⟩ | ⟨-, rfl⟩⟩
  · obtain rfl := h.glob.none_of_free hv
    refine ⟨hr, some (l.nodeId, .sx), tidy, fun hd' => ?_, fun _ => rfl, h.step id (fun n hne => ?_) ?_
      (h.glob.delaySx hn hsx)⟩
    · rw [hd] at hd'
      cases hd'
    · rw [tokenAt_some_ne hne]
      rfl
    · rw [hp]
      simpa [tokenAt] using (hk.dropSx hnoX hone honSx).1
  · rw [hp] at hrec
    exact absurd hrec.1 (by decide)
  · refine ⟨hr, o, tidy, fun _ => id, fun _ => rfl, h.step id (fun _ _ => rfl) ?_
      (h.glob.dropSx hsx)⟩
    rw [hp, htok]
    exact (hk.dropSx hnoX hone honSx).1
  · -- the early return leaves the SX flag of the local word set
    refine ⟨hr, o, False, fun _ => id, fun hf => ?_, h.step False.elim (fun _ _ => rfl) ?_
      (h.glob.dropSx hsx)⟩
    · simp [Mem.put, hk.sxFlag (pos_onNode_sx hsx)] at hf
    · rw [htok]
      exact (hk.dropSx hnoX hone honSx).2

/-! ### RELEASE -/

theorem release_ledger {msg : Message} (h : Ok m held o tidy) (hn : n.val < ubMaxNodes)
    (hd : msg.dest = n)
    (hc : (m.ll n).localIsReserveLock = .i ∨ (m.ll n).lockWord = .zero) :
    Ends (handleRelease n msg) (fun _ m' => ∃ o', (o = none → o' = none) ∧
      Ok m' held o' tidy) m := by
  have hk := h.node n
  -- no thread moves: a step of thread 0 of the node that changes none of its holds
  have hheld : Function.update held (.app ⟨0, n⟩) (held (.app ⟨0, n⟩)) = held :=
    Function.update_eq_self _ _
  have hstep : ∀ {a : UbRwLock} {k : LocalLock} {o' : Token},
      (∀ i, i ≠ n → tokenAt o' i = tokenAt o i) → NodeOk n k held (tokenAt o' n) tidy →
      GlobOk a held o' → Ok (m.put n a k) held o' tidy := by
    intro a k o' ht hnode hglob
    rw [← hheld] at hnode hglob ⊢
    exact h.step (l := ⟨0, n⟩) id ht hnode hglob
  refine ends_of_put n ?_
  refine wp_mono (ends_handleRelease hn hd) ?_
  rintro - _ - ⟨b, ⟨-, rfl⟩ | ⟨-, hi, hz, -⟩ | ⟨-, hi, -, rfl⟩⟩
  · exact ⟨o, id, hstep (fun _ _ => rfl) (hk.setFlag b) h.glob⟩
  · exact absurd hz (not_not.mpr (hc.resolve_left hi))
  · obtain ⟨htok, hback⟩ := h.give_back hn hi
    refine ⟨none, fun _ => rfl, hstep (fun i hne => ?_) ((hk.setToken .i).setFlag b) hback⟩
    rw [htok]
    simp [tokenAt, Ne.symm hne]

end Calls

end Ledger

end UbsAtomic
