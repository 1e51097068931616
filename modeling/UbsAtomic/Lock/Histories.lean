import UbsAtomic.Lock.LedgerRuns

/-! Histories of whole calls, and what the ledger says about them.

    Every call runs to its end before the next one starts; between two calls the memory agrees with
    the ledger of the holds. Two readings of the ledger are proved:

        tokens       X_LOCK_DECR - lock_word is what holders and tokens account for
        draining     balanced use without delays brings the lock back to where it started

    Both fail as soon as a call overwrites a field that is still needed, and both hold in all other
    histories. -/

namespace UbsAtomic

open Conc Conc.Prog

namespace Ledger

/-- What happens between two boundaries: a lock or unlock call, or a RELEASE message. -/
inductive Event where
  | call (op : Op)
  | release (msg : Message)
  deriving DecidableEq

def Event.isCall : Event → Bool
  | .call _ => true
  | .release _ => false

/-- Threads on the nodes of the lock that make the calls `rule` lets them make and unlock only what
    they hold; message threads that handle RELEASE messages at any time. -/
def client (rule : Op → Bool) : Client Actor Mem Label Event Result Holds where
  code
    | t, .call op => callCode t op
    | .handler n _, .release msg => do
      handleRelease n msg
      return .success
    | .app _, .release _ => return .error
  allowed
    | .app l, h, .call op => l.nodeId.val < ubMaxNodes && op ≠ .handle && h.owns op && rule op
    | .handler n _, _, .release msg => n.val < ubMaxNodes && msg.dest = n
    | _, _, _ => false
  start
    | h, .call op => h.start op
    | h, .release _ => h
  finish
    | h, .call op, r => h.finish op r
    | h, .release _, _ => h

abbrev LockBoundary := Boundary Actor Mem Holds

/-- A fresh lock that nobody holds. -/
def fresh : LockBoundary := ⟨Mem.init, fun _ => .none⟩

/-- `recursive = false`. -/
def nonRecursive : Op → Bool
  | .lockSx p => !p.recursive
  | .lockX p => !p.recursive
  | .unlockSx p => !p.recursive
  | .unlockX p => !p.recursive
  | _ => true

/-- Every lock call is successful. -/
def Locks : Event → Result → Prop
  | .call .lockS, r => r = .success
  | .call (.lockSx _), r => r = .success
  | .call (.lockX _), r => r = .success
  | _, _ => True

instance (e : Event) (r : Result) : Decidable (Locks e r) := by
  unfold Locks
  split <;> infer_instance

/-- The event overwrites nothing that is still needed: `lock_s` leads only on a node without S, the
    unlocks that clear `local_is_reserve_lock` find it clear, and so does a RELEASE that will find
    the local lock taken. -/
def Spares (s : Mem) : Actor → Event → Prop
  | .app l, .call .lockS =>
    (s.ll l.nodeId).globalReadRefCount = 0 ∨ (s.ll l.nodeId).globalState = .held
  | .app l, .call (.unlockS _) =>
    (s.ll l.nodeId).globalReadRefCount = 1 → (s.ll l.nodeId).localIsReserveLock = .i
  | .app l, .call (.unlockSx _) => (s.ll l.nodeId).localIsReserveLock = .i
  | .handler n _, .release _ =>
    (s.ll n).localIsReserveLock = .i ∨ (s.ll n).lockWord = .zero
  | _, _ => True

instance (s : Mem) (t : Actor) (e : Event) : Decidable (Spares s t e) := by
  unfold Spares
  split <;> infer_instance

/-! ### Every event keeps the ledger -/

/-- The fresh lock agrees with the empty ledger. -/
theorem ok_fresh : Ok Mem.init.face fresh.held none True := by
  have hS : ∀ n, onNode n nS fresh.held = 0 := fun n => sumOver_eq_zero fun _ _ => rfl
  have hX : ∀ n, onNode n nX fresh.held = 0 := fun n => sumOver_eq_zero fun _ _ => rfl
  have hSx : ∀ n, onNode n nSx fresh.held = 0 := fun n => sumOver_eq_zero fun _ _ => rfl
  have hunit : ∀ n, unit fresh.held none n = 0 := fun n => unit_eq_zero (hS n) (by simp)
  refine ⟨fun n hn => by simpa [Mem.face, Mem.init] using hn, fun n => ?_, ?_⟩
  · refine ⟨(hS n).symm, by simp [Mem.face, Mem.init, LocalLock.face, LocalLock.init], fun _ => rfl,
      rfl, fun h0 => ?_, fun _ i => ?_, fun h0 => ?_, fun _ _ => rfl,
      fun t ht => absurd ht (lt_irrefl 0), fun t ht => absurd ht (lt_irrefl 0)⟩
    · rw [hX] at h0
      exact absurd h0 (lt_irrefl 0)
    · have hlane : onLane n i nS fresh.held = 0 := sumOver_eq_zero fun _ _ => rfl
      rw [hlane]
      exact ⟨rfl, rfl, fun _ => rfl⟩
    · rw [hSx] at h0
      exact absurd h0 (lt_irrefl 0)
  · have htX : total nX fresh.held = 0 := sumOver_eq_zero fun _ _ => rfl
    have htSx : total nSx fresh.held = 0 := sumOver_eq_zero fun _ _ => rfl
    refine ⟨?_, by decide, ?_, fun l hl => absurd hl (lt_irrefl 0),
      fun l hl => absurd hl (lt_irrefl 0), fun _ => rfl, by simp, by simp, fun n hn => ?_,
      fun n hn => ?_⟩
    · rw [htX, htSx, Finset.sum_eq_zero fun n _ => hunit n]
      decide
    · rw [htSx]
      decide
    · rw [hunit]
      simp [Mem.face, Mem.init, UbRwLock.core, UbRwLock.init]
    · exact if_pos hn

/-- One event keeps the ledger. Without delays no token appears, and the local words stay tidy
    unless an `unlock_sx` leaves its flag behind. -/
theorem ok_call {rule : Op → Bool} (hrule : ∀ op, rule op = true → nonRecursive op = true)
    {x y : LockBoundary} {t : Actor} {e : Event} {r : Result} {o : Token}
    {tidy : Prop} (h : Ok x.mem.face x.held o tidy) (hlock : Locks e r) (hspare : Spares x.mem t e)
    (hc : x.Calls (client rule) t e r y) :
    ∃ o' tidy', Ok y.mem.face y.held o' tidy' ∧
      ((∀ p, rule (.unlockS p) = true ∨ rule (.unlockSx p) = true ∨ rule (.unlockX p) = true →
        p.allowDelayRelease = false) → o = none → o' = none) ∧
      ((∀ l p, t = .app l → e = .call (.unlockSx p) → ((y.mem.ll l.nodeId).lockWord 0).flag = false) →
        tidy' = tidy) := by
  obtain ⟨hallow, s, hrun, rfl⟩ := hc
  cases t with
  | handler n i =>
    cases e with
    | call op => simp [client] at hallow
    | release msg =>
      simp only [client, Bool.and_eq_true, decide_eq_true_eq] at hallow
      have hend : Alone.Ends ((handleRelease n msg).bind fun _ => .ret Result.success)
          (fun _ m' => ∃ o', (o = none → o' = none) ∧ Ok m' x.held o' tidy) x.mem.face :=
        wp_bind (wp_mono (release_ledger h hallow.1 hallow.2 hspare) fun _ _ _ hq => ⟨trivial, hq⟩)
      obtain ⟨o', ho, hok⟩ := hrun.sound hend
      have hheld : Function.update x.held (.handler n i) (x.held (.handler n i)) = x.held :=
        Function.update_eq_self _ _
      refine ⟨o', tidy, ?_, fun _ => ho, fun _ => rfl⟩
      show Ok s.face (Function.update x.held (.handler n i) (x.held (.handler n i))) o' tidy
      rwa [hheld]
  | app l =>
    cases e with
    | release msg => simp [client] at hallow
    | call op =>
      simp only [client, Bool.and_eq_true, decide_eq_true_eq] at hallow
      obtain ⟨⟨⟨hn, hhandle⟩, howns⟩, hop⟩ := hallow
      have hrec := hrule op hop
      cases op with
      | lockS =>
        obtain rfl : r = .success := hlock
        obtain ⟨o', ho, hok⟩ := hrun.sound (lockS_ledger h hn hspare) rfl
        exact ⟨o', tidy, hok, fun _ => ho, fun _ => rfl⟩
      | lockSx p =>
        obtain rfl : r = .success := hlock
        obtain ⟨o', ho, hok⟩ := hrun.sound (lockSx_ledger p (by simpa [nonRecursive] using hrec) h hn) rfl
        exact ⟨o', tidy, hok, fun _ => ho, fun _ => rfl⟩
      | lockX p =>
        obtain rfl : r = .success := hlock
        obtain ⟨o', ho, hok⟩ := hrun.sound (lockX_ledger p (by simpa [nonRecursive] using hrec) h hn) rfl
        exact ⟨o', tidy, hok, fun _ => ho, fun _ => rfl⟩
      | unlockS p =>
        obtain ⟨-, o', ho, hok⟩ :=
          hrun.sound (unlockS_ledger p h hn (by simpa [Holds.owns] using howns) hspare)
        exact ⟨o', tidy, hok, fun hd => ho (hd p (.inl hop)), fun _ => rfl⟩
      | unlockSx p =>
        obtain ⟨-, o', tidy', ho, htidy, hok⟩ := hrun.sound (unlockSx_ledger p
          (by simpa [nonRecursive] using hrec) h hn (by simpa [Holds.owns] using howns) hspare)
        exact ⟨o', tidy', hok, fun hd => ho (hd p (.inr (.inl hop))), fun hf => htidy (hf l p rfl rfl)⟩
      | unlockX p =>
        obtain ⟨-, o', ho, hok⟩ := hrun.sound (unlockX_ledger p (by simpa [nonRecursive] using hrec) h
          hn (by simpa [Holds.owns] using howns))
        exact ⟨o', tidy, hok, fun hd => ho (hd p (.inr (.inr hop))), fun _ => rfl⟩
      | handle => exact absurd rfl hhandle

/-! ### Tokens -/

open Classical in
/-- Holders and tokens account for the whole of `lock_word`, and the reservation names the node
    that has the token. -/
def Accounts (x : LockBoundary) : Prop :=
  xLockDecr - x.mem.shm.lockWord
      = 65536 * (if (∃ l, 0 < (x.held (.app l)).x) ∨ ∃ n, (x.mem.ll n).localIsReserveLock = .x
          then 1 else 0)
        + 32768 * (if (∃ l, 0 < (x.held (.app l)).sx) ∨ ∃ n, (x.mem.ll n).localIsReserveLock = .sx
          then 1 else 0)
        + (Finset.univ.filter fun n : NodeId =>
            (∃ t, 0 < (x.held (.app ⟨t, n⟩)).s) ∨ (x.mem.ll n).localIsReserveLock = .s).card ∧
    ∀ n, OnNode n x.mem.shm.reserveLockOwner ↔ (x.mem.ll n).localIsReserveLock ≠ .i

section Accounts

variable {m : Mem} {held : Actor → Holds} {o : Token} {tidy : Prop}

/-- A token of a mode is a node that shows it. -/
theorem kept_pos_iff (h : Ok m held o tidy) {mode : Mode} (hmode : mode ≠ .i) :
    0 < kept mode o ↔ ∃ n, (m.ll n).localIsReserveLock = mode := by
  constructor
  · intro hpos
    cases o with
    | none => exact absurd hpos (lt_irrefl 0)
    | some t =>
      obtain ⟨n, mode'⟩ := t
      have hmode' : mode' = mode := by
        by_contra hne
        simp [kept, hne] at hpos
      refine ⟨n, (h.node n).token.trans ?_⟩
      simp [tokenAt, hmode']
  · rintro ⟨n, hn⟩
    rw [eq_of_tokenAt ((h.node n).token.symm.trans hn) hmode]
    simp [kept]

/-- A count that is at most one is an indicator. -/
theorem eq_indicator {v : ℤ} {p : Prop} [Decidable p] (h0 : 0 ≤ v) (h1 : v ≤ 1) (hp : 0 < v ↔ p) :
    v = if p then 1 else 0 := by
  split
  · have := hp.mpr ‹_›
    omega
  · have := mt hp.mp ‹_›
    omega

theorem pos_add_iff {u v : ℤ} (hu : 0 ≤ u) (hv : 0 ≤ v) : 0 < u + v ↔ 0 < u ∨ 0 < v := by
  omega

theorem Ok.countX (h : Ok m held o tidy) : total nX held + kept .x o ≤ 1 := by
  have h1 := total_nonneg (γ := held) nX_nonneg
  have h2 := kept_nonneg .x o
  by_cases hpos : 0 < total nX held + kept .x o
  · exact (h.glob.alone_of_x hpos).2.1.le
  · omega

theorem total_pos_iff {f : Holds → ℤ} (hf : ∀ h, 0 ≤ f h) :
    0 < total f held ↔ ∃ l, 0 < f (held (.app l)) := by
  rw [total, sumOver_pos_iff hf]
  simp

/-- The reservation names exactly the node with the token. -/
theorem Ok.reserved_iff (h : Ok m held o tidy) (n : NodeId) :
    OnNode n m.shm.reserveLockOwner ↔ (m.ll n).localIsReserveLock ≠ .i := by
  rw [(h.node n).token]
  cases o with
  | none =>
    rw [h.glob.free rfl]
    exact ⟨fun hn => absurd rfl hn.ne_invalid, fun hn => absurd rfl hn⟩
  | some t =>
    obtain ⟨i, mode⟩ := t
    obtain ⟨hmode, hi⟩ := h.glob.reserved i mode rfl
    constructor
    · intro hn
      have hin : i = n := Fin.ext (hi.decode.symm.trans hn.decode)
      simpa [tokenAt, hin] using hmode
    · intro hn
      have hin : i = n := by
        by_contra hne
        simp [tokenAt, hne] at hn
      rwa [← hin]

theorem Ok.accounts {x : LockBoundary} (h : Ok x.mem.face x.held o tidy) : Accounts x := by
  classical
  refine ⟨?_, h.reserved_iff⟩
  have hx := total_nonneg (γ := x.held) nX_nonneg
  have hsx := total_nonneg (γ := x.held) nSx_nonneg
  have hX : total nX x.held + kept .x o
      = if (∃ l, 0 < (x.held (.app l)).x) ∨ ∃ n, (x.mem.ll n).localIsReserveLock = .x
        then 1 else 0 := by
    refine eq_indicator (add_nonneg hx (kept_nonneg _ _)) h.countX ?_
    rw [pos_add_iff hx (kept_nonneg _ _), total_pos_iff nX_nonneg, kept_pos_iff h (by decide)]
    simp only [nX, Int.natCast_pos]
    exact Iff.rfl
  have hSX : total nSx x.held + kept .sx o
      = if (∃ l, 0 < (x.held (.app l)).sx) ∨ ∃ n, (x.mem.ll n).localIsReserveLock = .sx
        then 1 else 0 := by
    refine eq_indicator (add_nonneg hsx (kept_nonneg _ _)) h.glob.oneSx ?_
    rw [pos_add_iff hsx (kept_nonneg _ _), total_pos_iff nSx_nonneg, kept_pos_iff h (by decide)]
    simp only [nSx, Int.natCast_pos]
    exact Iff.rfl
  have hS : ∑ n, unit x.held o n = (Finset.univ.filter fun n : NodeId =>
      (∃ t, 0 < (x.held (.app ⟨t, n⟩)).s) ∨ (x.mem.ll n).localIsReserveLock = .s).card := by
    rw [Finset.card_filter, Nat.cast_sum]
    refine Finset.sum_congr rfl fun n _ => ?_
    have hiff : (0 < onNode n nS x.held ∨ o = some (n, .s))
        ↔ (∃ t, 0 < (x.held (.app ⟨t, n⟩)).s) ∨ (x.mem.ll n).localIsReserveLock = .s := by
      refine or_congr ?_ ?_
      · rw [onNode, sumOver_pos_iff nS_nonneg]
        constructor
        · rintro ⟨⟨t, i⟩, rfl, hpos⟩
          exact ⟨t, by simpa [nS] using hpos⟩
        · rintro ⟨t, hpos⟩
          exact ⟨⟨t, n⟩, rfl, by simpa [nS] using hpos⟩
      · have htok : (x.mem.ll n).localIsReserveLock = tokenAt o n := (h.node n).token
        rw [htok]
        constructor
        · rintro rfl
          simp [tokenAt]
        · intro ht
          exact eq_of_tokenAt ht (by decide)
    rw [unit]
    simp only [hiff]
    push_cast
    rfl
  have hword : xLockDecr - x.mem.shm.lockWord = xLockDecr * (total nX x.held + kept .x o) +
    xLockHalfDecr * (total nSx x.held + kept .sx o) + ∑ n, unit x.held o n := h.glob.word
  rw [hword, hX, hSX, hS]
  rfl

end Accounts

/-- A history of successful calls, events and RELEASE messages that overwrite nothing. -/
theorem accounts_of_spares {x : LockBoundary}
    (h : Boundary.History (client nonRecursive)
      (fun x t e r => Locks e r ∧ Spares x.mem t e) fresh x) : Accounts x := by
  have hok : ∃ o tidy, Ok x.mem.face x.held o tidy := by
    refine h.invariant (J := fun x => ∃ o tidy, Ok x.mem.face x.held o tidy)
      ⟨none, True, ok_fresh⟩ ?_
    rintro x t e r y ⟨o, tidy, ho⟩ ⟨hlock, hspare⟩ hc
    obtain ⟨o', tidy', ho', -⟩ := ok_call (fun _ => id) ho hlock hspare hc
    exact ⟨o', tidy', ho'⟩
  obtain ⟨o, tidy, ho⟩ := hok
  exact ho.accounts

/-- `allow_delay_release = true`. -/
def delayed : Policy := { Policy.base with allowDelayRelease := true }

/-- Node 1 holds SX, node 0 has released its S with delay: the word lacks one half and one unit. -/
theorem accounts_of_spares_delayed : ∃ x, Accounts x ∧ x.mem.shm.lockWord = 32767 ∧
    (x.mem.ll 0).localIsReserveLock = .s ∧ (x.held (.app ⟨1, 1⟩)).sx = 1 := by
  obtain ⟨x, hx, hp⟩ := Boundary.history_of_play (client nonRecursive)
    (fun x t e r => Locks e r ∧ Spares x.mem t e) fresh
    [(.app ⟨1, 0⟩, .call .lockS), (.app ⟨1, 1⟩, .call (.lockSx .base)),
      (.app ⟨1, 0⟩, .call (.unlockS delayed))]
    (fun x => x.mem.shm.lockWord = 32767 ∧ (x.mem.ll 0).localIsReserveLock = .s ∧
      (x.held (.app ⟨1, 1⟩)).sx = 1) (by decide +kernel)
  exact ⟨x, accounts_of_spares hx, hp⟩

/-- Thread 2 takes SX next to the S of thread 1 on the same node and releases it with delay. The
    last `unlock_s` then clears the token, and half of the word belongs to nobody. -/
theorem accounts_violated : ∃ x,
    Boundary.History (client nonRecursive) (fun _ _ e r => Locks e r) fresh x ∧
      (∀ l, x.held (.app l) = .none) ∧ (∀ n, (x.mem.ll n).localIsReserveLock = .i) ∧
      x.mem.shm.lockWord = 32768 ∧ ¬ Accounts x := by
  obtain ⟨x, hx, h1, h2, htok, hword, hres⟩ :=
    Boundary.history_of_play (client nonRecursive)
      (fun _ t e r => Locks e r ∧ (t = .app ⟨1, 0⟩ ∨ t = .app ⟨2, 0⟩)) fresh
      [(.app ⟨1, 0⟩, .call .lockS), (.app ⟨2, 0⟩, .call (.lockSx .base)),
        (.app ⟨2, 0⟩, .call (.unlockSx delayed)), (.app ⟨1, 0⟩, .call (.unlockS .base))]
      (fun x => x.held (.app ⟨1, 0⟩) = .none ∧ x.held (.app ⟨2, 0⟩) = .none ∧
        (∀ n, (x.mem.ll n).localIsReserveLock = .i) ∧ x.mem.shm.lockWord = 32768 ∧
        x.mem.shm.reserveLockOwner = makeGlobalOwner ⟨2, 0⟩) (by decide +kernel)
  refine ⟨x, hx.mono fun _ _ _ _ h => h.1, fun l => ?_, htok, hword, fun hacc => ?_⟩
  · by_cases hl1 : l = ⟨1, 0⟩
    · rwa [hl1]
    by_cases hl2 : l = ⟨2, 0⟩
    · rwa [hl2]
    refine hx.held_eq fun _ t' _ _ h e => ?_
    subst e
    exact h.2.elim (fun e => hl1 (Actor.app.inj e)) fun e => hl2 (Actor.app.inj e)
  · -- the reservation still names node 0
    refine (hacc.2 0).mp ?_ (htok 0)
    rw [hres]
    exact ⟨by decide, 2, rfl⟩

end Ledger

end UbsAtomic
