import UbsAtomic.Conc.Sequential
import UbsAtomic.Lock.Client

/-! What the functions do when nobody else moves.

    A call of node `n` alone changes the shared object and the local lock of that node, so a memory
    is written `m.put n a k`: `a` is the shared object, `k` the local lock of `n`, and `m` all the
    rest. Waiting and waking do not show in the view `Mem.face`.

        load / store / fetch / CAS of a field of a    ──▶    m.put n a' k
        load / store / fetch / CAS of a field of k    ──▶    m.put n a k'

    Each function gets one lemma that says which `a` and `k` it leaves behind. -/

namespace UbsAtomic

open Conc Conc.Prog

/-- `m` with another shared object and another local lock of node `n`. -/
def Mem.put (m : Mem) (n : NodeId) (a : UbRwLock) (k : LocalLock) : Mem :=
  { m with shm := a, ll := Function.update m.ll n k }

theorem Mem.put_self (m : Mem) (n : NodeId) : m.put n m.shm (m.ll n) = m := by
  simp [Mem.put]

namespace Alone

/-- Every run of the call alone from `m` ends with `Q`. -/
abbrev Ends {α : Type} (p : Call α) (Q : α → Mem → Prop) (m : Mem) : Prop := p.seq Mem.face Q m

/-! ### Fields -/

section Fields

variable {α β : Type} {e : Label} {m : Mem} {n : NodeId} {a : UbRwLock} {k : LocalLock}

/-- A field of the shared object that its core keeps. -/
class InShm (get : UbRwLock → α) (set : α → UbRwLock → UbRwLock) : Prop where
  get : ∀ a, get a.core = get a
  set : ∀ x a, (set x a).core = set x a.core

/-- A field of the local lock that its face keeps. -/
class InLocal (get : LocalLock → α) (set : α → LocalLock → LocalLock) : Prop where
  get : ∀ k, get k.face = get k
  set : ∀ x k, (set x k).face = set x k.face

section Instances

instance : InLocal (·.lockWord) fun v k => { k with lockWord := v } :=
  ⟨fun _ => rfl, fun _ _ => rfl⟩

instance : InLocal (·.lockXOwner) fun v k => { k with lockXOwner := v } :=
  ⟨fun _ => rfl, fun _ _ => rfl⟩

instance : InLocal (·.lockSxOwner) fun v k => { k with lockSxOwner := v } :=
  ⟨fun _ => rfl, fun _ _ => rfl⟩

instance : InLocal (·.xRecursive) fun v k => { k with xRecursive := v } :=
  ⟨fun _ => rfl, fun _ _ => rfl⟩

instance : InLocal (·.sxRecursive) fun v k => { k with sxRecursive := v } :=
  ⟨fun _ => rfl, fun _ _ => rfl⟩

instance : InLocal (·.localIsReserveLock) fun v k => { k with localIsReserveLock := v } :=
  ⟨fun _ => rfl, fun _ _ => rfl⟩

instance : InLocal (·.remoteReleaseInProgress) fun v k => { k with remoteReleaseInProgress := v } :=
  ⟨fun _ => rfl, fun _ _ => rfl⟩

instance : InLocal (·.holdGlobal) fun v k => { k with holdGlobal := v } :=
  ⟨fun _ => rfl, fun _ _ => rfl⟩

instance : InLocal (·.globalState) fun v k => { k with globalState := v } :=
  ⟨fun _ => rfl, fun _ _ => rfl⟩

instance : InLocal (·.globalReadRefCount) fun v k => { k with globalReadRefCount := v } :=
  ⟨fun _ => rfl, fun _ _ => rfl⟩

instance (i : Fin 4) : InLocal (·.lockWord i)
    fun v k => { k with lockWord := Function.update k.lockWord i v } :=
  ⟨fun _ => rfl, fun _ _ => rfl⟩

instance : InShm (·.lockWord) fun v a => { a with lockWord := v } :=
  ⟨fun _ => rfl, fun _ _ => rfl⟩

instance : InShm (·.lockOwnerX) fun v a => { a with lockOwnerX := v } :=
  ⟨fun _ => rfl, fun _ _ => rfl⟩

instance : InShm (·.lockOwnerSx) fun v a => { a with lockOwnerSx := v } :=
  ⟨fun _ => rfl, fun _ _ => rfl⟩

instance : InShm (·.reserveLockOwner) fun v a => { a with reserveLockOwner := v } :=
  ⟨fun _ => rfl, fun _ _ => rfl⟩

instance : InShm (·.xRecursive) fun v a => { a with xRecursive := v } :=
  ⟨fun _ => rfl, fun _ _ => rfl⟩

instance : InShm (·.sxRecursive) fun v a => { a with sxRecursive := v } :=
  ⟨fun _ => rfl, fun _ _ => rfl⟩

instance : InShm (·.sharedOwnerBitmap) fun v a => { a with sharedOwnerBitmap := v } :=
  ⟨fun _ => rfl, fun _ _ => rfl⟩

instance (n : NodeId) : InShm (·.nodeRegistry n)
    fun v a => { a with nodeRegistry := Function.update a.nodeRegistry n v } :=
  ⟨fun _ => rfl, fun _ _ => rfl⟩

end Instances

theorem seen_shm {get : UbRwLock → α} {set : α → UbRwLock → UbRwLock} [h : InShm get set] :
    Seen Mem.face (shmField get set) :=
  ⟨fun s => h.get s.shm, fun x s => by simp [shmField, Mem.face, h.set]⟩

theorem seen_local {get : LocalLock → α} {set : α → LocalLock → LocalLock} [h : InLocal get set] :
    Seen Mem.face (Local.field n get set) := by
  refine ⟨fun s => h.get (s.ll n), fun x s => ?_⟩
  have hll : (fun i => (Function.update s.ll n (set x (s.ll n)) i).face)
      = Function.update (fun i => (s.ll i).face) n (set x (s.ll n).face) := by
    funext i
    by_cases hi : i = n
    · subst hi
      simp [h.set]
    · simp [hi]
  simp only [Local.field, Mem.face, hll]

theorem get_put {get : LocalLock → α} {set : α → LocalLock → LocalLock} :
    (Local.field n get set).get (m.put n a k) = get k := by
  simp [Local.field, Mem.put]

theorem set_put {get : LocalLock → α} {set : α → LocalLock → LocalLock} {x : α} :
    (Local.field n get set).set x (m.put n a k) = m.put n a (set x k) := by
  simp [Local.field, Mem.put]

section Shm

variable {get : UbRwLock → α} {set : α → UbRwLock → UbRwLock} [InShm get set]

theorem loadShm {Q : α → Mem → Prop} (h : Q (get a) (m.put n a k)) :
    Ends (loadAt e (shmField get set)) Q (m.put n a k) :=
  seq_load seen_shm h

theorem storeShm {x : α} {Q : Unit → Mem → Prop} (h : Q () (m.put n (set x a) k)) :
    Ends (storeAt e (shmField get set) x) Q (m.put n a k) :=
  seq_store seen_shm h

theorem fetchShm {f : α → α} {Q : α → Mem → Prop} (h : Q (get a) (m.put n (set (f (get a)) a) k)) :
    Ends (fetchAt e (shmField get set) f) Q (m.put n a k) :=
  seq_rmw seen_shm h

theorem casShm [DecidableEq α] {x y : α} {Q : Bool × α → Mem → Prop}
    (ht : get a = x → Q (true, x) (m.put n (set y a) k))
    (hne : get a ≠ x → Q (false, get a) (m.put n a k)) :
    Ends (casAt e (shmField get set) x y) Q (m.put n a k) :=
  seq_cas seen_shm ht hne

theorem casWeakShm [DecidableEq α] {x y : α} {Q : Bool × α → Mem → Prop}
    (ht : get a = x → Q (true, x) (m.put n (set y a) k))
    (hne : Q (false, get a) (m.put n a k)) :
    Ends (casWeakAt e (shmField get set) x y) Q (m.put n a k) :=
  seq_casWeak seen_shm ht hne

end Shm

section OfNode

variable {get : LocalLock → α} {set : α → LocalLock → LocalLock} [InLocal get set]

theorem loadLocal {Q : α → Mem → Prop} (h : Q (get k) (m.put n a k)) :
    Ends (loadAt e (Local.field n get set)) Q (m.put n a k) :=
  seq_load seen_local (by rwa [get_put])

theorem storeLocal {x : α} {Q : Unit → Mem → Prop} (h : Q () (m.put n a (set x k))) :
    Ends (storeAt e (Local.field n get set) x) Q (m.put n a k) :=
  seq_store seen_local (by rwa [set_put])

theorem rmwLocal {f : α → α × β} {Q : β → Mem → Prop}
    (h : Q (f (get k)).2 (m.put n a (set (f (get k)).1 k))) :
    Ends (rmwAt e (Local.field n get set) f) Q (m.put n a k) :=
  seq_rmw seen_local (by rwa [get_put, set_put])

theorem casLocal [DecidableEq α] {x y : α} {Q : Bool × α → Mem → Prop}
    (ht : get k = x → Q (true, x) (m.put n a (set y k)))
    (hne : get k ≠ x → Q (false, get k) (m.put n a k)) :
    Ends (casAt e (Local.field n get set) x y) Q (m.put n a k) :=
  seq_cas seen_local (by rwa [get_put, set_put]) (by rwa [get_put])

theorem casWeakLocal [DecidableEq α] {x y : α} {Q : Bool × α → Mem → Prop}
    (ht : get k = x → Q (true, x) (m.put n a (set y k)))
    (hne : Q (false, get k) (m.put n a k)) :
    Ends (casWeakAt e (Local.field n get set) x y) Q (m.put n a k) :=
  seq_casWeak seen_local (by rwa [get_put, set_put]) (by rwa [get_put])

end OfNode

/-- One level less, on a depth of the local lock. -/
theorem popLocal {get : LocalLock → ℕ} {set : ℕ → LocalLock → LocalLock} [InLocal get set]
    {Q : ℕ → Mem → Prop} (h : Q (get k) (m.put n a (set (u32 (get k + 4294967295)) k))) :
    Ends (LocalLock.popDepth (Local.field n get set)) Q (m.put n a k) := by
  rw [LocalLock.popDepth, fetch]
  exact rmwLocal h

/-- One level less, on a depth of the shared object. -/
theorem popShm {get : UbRwLock → ℕ} {set : ℕ → UbRwLock → UbRwLock} [InShm get set]
    {Q : ℕ → Mem → Prop} (h : Q (get a) (m.put n (set (u32 (get a + 4294967295)) a) k)) :
    Ends (LocalLock.popDepth (shmField get set)) Q (m.put n a k) := by
  rw [LocalLock.popDepth, fetch]
  exact seq_rmw seen_shm h

theorem stable_face (m : Mem) :
    (alone Mem.face).Stable () (fun _ _ => True) SameFace Label.Plain m :=
  seq_stable fun _ _ h => h

/-- Waiting, waking and everything else the view does not show. -/
theorem ends_quiet {p : Call α} {p' : α → Call β} {Q : β → Mem → Prop} {m : Mem}
    (hp : Quiet SameFace Label.Plain p) (h : ∀ x, Ends (p' x) Q m) : Ends (p.bind p') Q m :=
  hp.wp_bind (stable_face m) h

/-- A wait loop takes the lock in a single attempt, or gives up. -/
theorem ends_run {π : Type} {w : LockLoop π} {A B : Mem → Prop} {Q : Result → Mem → Prop} {m : Mem}
    (hw : w.Waits) (attempt : Ends w.attempt (fun b m' => if b then A m' else m' = m) m)
    (acquired : ∀ b slot m', A m' → Ends (w.acquired b slot) (fun _ => Q .success) m')
    (announce : Ends w.announce (fun _ m' => m' = m) m) (giveUp : Ends w.giveUp (fun _ => B) m)
    (gaveUp : ∀ m' r, B m' → r ≠ .success → Q r m') : Ends w.run Q m := by
  have h : w.Meets (alone Mem.face) () (fun _ _ => True) m A B Q SameFace :=
    ⟨stable_face m, attempt, acquired, announce, giveUp, fun m' hb =>
      ⟨stable_face m', fun r hr => gaveUp m' r hb hr⟩⟩
  exact h.wp_run hw

end Fields

/-! ### The local lock -/

section LocalLocks

variable {m : Mem} {l : Location} {a : UbRwLock} {k : LocalLock}

/-- One reader more in lane `i`. -/
def addReader (i : Fin 4) (k : LocalLock) : LocalLock :=
  { k with
    lockWord := Function.update k.lockWord i
      { k.lockWord i with count := (k.lockWord i).count + 1 } }

/-- One reader less in lane `i`. -/
def dropReader (i : Fin 4) (k : LocalLock) : LocalLock :=
  { k with
    lockWord := Function.update k.lockWord i
      { k.lockWord i with count := (k.lockWord i).count - 1 } }

/-- The SX flag of the local word. -/
def setSx (b : Bool) (k : LocalLock) : LocalLock :=
  { k with lockWord := Function.update k.lockWord 0 { k.lockWord 0 with flag := b } }

/-- The local lock after one `unlock_x` with recursion flag `r`. -/
def leaveX (r : Bool) (k : LocalLock) : LocalLock :=
  if r = true ∧ 1 < k.xRecursive then { k with xRecursive := u32 (k.xRecursive + 4294967295) }
  else { k with lockWord := .zero, lockXOwner := 0, xRecursive := 0 }

/-- The local lock after one `unlock_sx` with recursion flag `r`. -/
def leaveSx (r : Bool) (k : LocalLock) : LocalLock :=
  if r = true ∧ 1 < k.sxRecursive then { k with sxRecursive := u32 (k.sxRecursive + 4294967295) }
  else { setSx false k with lockSxOwner := 0, sxRecursive := 0 }

/-- One `unlock_s` undoes one `lock_s`. -/
theorem dropReader_addReader (i : Fin 4) (k : LocalLock) : dropReader i (addReader i k) = k := by
  simp [dropReader, addReader]

theorem ends_localLockS :
    Ends (LocalLock.lockS l) (fun r m' =>
      (r = .success → StateWord.xFlag k.lockWord = false ∧
        (k.lockWord (laneForTid l.tid)).sentinel = false ∧
        m' = m.put l.nodeId a (addReader (laneForTid l.tid) k)) ∧
      (r ≠ .success → m' = m.put l.nodeId a k)) (m.put l.nodeId a k) := by
  refine ends_run (A := fun m' => StateWord.xFlag k.lockWord = false ∧
    (k.lockWord (laneForTid l.tid)).sentinel = false ∧
      m' = m.put l.nodeId a (addReader (laneForTid l.tid) k)) (B := fun m' => m' = m.put l.nodeId a k)
    (LocalLock.lockSLoop_waits l) ?_ ?_ ⟨trivial, rfl⟩ ⟨trivial, rfl⟩
    fun m' r hm hr => ⟨fun hs => absurd hs hr, fun _ => hm⟩
  · refine wp_bind (loadLocal ?_)
    split
    · exact ⟨trivial, rfl⟩
    rename_i hx
    dsimp only
    split
    · exact ⟨trivial, rfl⟩
    rename_i hs
    split
    · exact ⟨trivial, rfl⟩
    refine wp_bind (casWeakLocal (fun _ => ?_) ⟨trivial, rfl⟩)
    exact ⟨trivial, by simpa using hx, by simpa using hs, rfl⟩
  · rintro b slot _ ⟨hx, hs, rfl⟩
    refine ends_quiet (.rmw trivial fun _ _ => hides_local rfl) fun _ => ?_
    refine wp_mono ((quiet_ifThen ((localQueue_silent _).popHead slot)).wp (stable_face _)) ?_
    rintro _ _ - rfl
    exact ⟨fun _ => ⟨hx, hs, rfl⟩, fun hne => absurd rfl hne⟩

/-- How a successful local `lock_x` with recursion flag `r` leaves the local lock. -/
def EnteredX (r : Bool) (tid : Tid) (k k' : LocalLock) : Prop :=
  (k.lockXOwner = tid ∧ r = true ∧ k' = { k with xRecursive := u32 (k.xRecursive + 1) }) ∨
  (k.lockXOwner ≠ tid ∧ k.lockWord = .zero ∧
    k' = { k with lockWord := .xState, lockXOwner := tid, xRecursive := 1 })

/-- How a successful local `lock_sx` with recursion flag `r` leaves the local lock. -/
def EnteredSx (r : Bool) (tid : Tid) (k k' : LocalLock) : Prop :=
  (k.lockSxOwner = tid ∧ r = true ∧ k' = { k with sxRecursive := u32 (k.sxRecursive + 1) }) ∨
  (k.lockSxOwner ≠ tid ∧ StateWord.xFlag k.lockWord = false ∧ (k.lockWord 0).flag = false ∧
    k' = { setSx true k with lockSxOwner := tid, sxRecursive := 1 })

theorem ends_localLockX (r : Bool) :
    Ends (LocalLock.lockX r l) (fun res m' =>
      (res = .success → ∃ k', EnteredX r l.tid k k' ∧ m' = m.put l.nodeId a k') ∧
      (res ≠ .success → m' = m.put l.nodeId a k)) (m.put l.nodeId a k) := by
  refine wp_bind (loadLocal ?_)
  split
  · rename_i hown
    split
    · rename_i hr
      exact wp_bind (rmwLocal ⟨trivial, fun _ => ⟨_, .inl ⟨hown, hr, rfl⟩, rfl⟩,
        fun hne => absurd rfl hne⟩)
    · exact ⟨trivial, by simp, fun _ => rfl⟩
  rename_i hown
  refine ends_run (A := fun m' => k.lockWord = .zero ∧
    m' = m.put l.nodeId a { k with lockWord := .xState }) (B := fun m' => m' = m.put l.nodeId a k)
    (LocalLock.lockXLoop_waits l) ?_ ?_ ⟨trivial, rfl⟩ ⟨trivial, rfl⟩
    fun m' r hm hr => ⟨fun hs => absurd hs hr, fun _ => hm⟩
  · refine wp_bind (loadLocal ?_)
    split
    · exact ⟨trivial, rfl⟩
    rename_i hidle
    refine wp_bind (casWeakLocal (fun _ => ?_) ⟨trivial, rfl⟩)
    exact ⟨trivial, by simpa [StateWord.isIdle] using hidle, rfl⟩
  · rintro b slot _ ⟨hz, rfl⟩
    refine wp_bind (storeLocal ?_)
    refine wp_bind (storeLocal ?_)
    refine wp_mono ((quiet_ifThen ((localQueue_silent _).popHead slot)).wp (stable_face _)) ?_
    rintro _ _ - rfl
    exact ⟨fun _ => ⟨_, .inr ⟨hown, hz, rfl⟩, rfl⟩, fun hne => absurd rfl hne⟩

theorem ends_localLockSx (r : Bool) :
    Ends (LocalLock.lockSx r l) (fun res m' =>
      (res = .success → ∃ k', EnteredSx r l.tid k k' ∧ m' = m.put l.nodeId a k') ∧
      (res ≠ .success → m' = m.put l.nodeId a k)) (m.put l.nodeId a k) := by
  refine wp_bind (loadLocal ?_)
  split
  · rename_i hown
    split
    · rename_i hr
      exact wp_bind (rmwLocal ⟨trivial, fun _ => ⟨_, .inl ⟨hown, hr, rfl⟩, rfl⟩,
        fun hne => absurd rfl hne⟩)
    · exact ⟨trivial, by simp, fun _ => rfl⟩
  rename_i hown
  refine ends_run (A := fun m' => StateWord.xFlag k.lockWord = false ∧
      (k.lockWord 0).flag = false ∧ m' = m.put l.nodeId a (setSx true k))
    (B := fun m' => m' = m.put l.nodeId a k) (LocalLock.lockSxLoop_waits l) ?_ ?_ ⟨trivial, rfl⟩
    ⟨trivial, rfl⟩
    fun m' r hm hr => ⟨fun hs => absurd hs hr, fun _ => hm⟩
  · refine wp_bind (loadLocal ?_)
    split
    · exact ⟨trivial, rfl⟩
    rename_i hword
    dsimp only
    split
    · exact ⟨trivial, rfl⟩
    rename_i hlane
    refine wp_bind (casWeakLocal (fun _ => ?_) ⟨trivial, rfl⟩)
    simp only [Bool.or_eq_true, not_or, Bool.not_eq_true] at hword hlane
    exact ⟨trivial, hword.1.2, hlane.1, rfl⟩
  · rintro b slot _ ⟨hx, hz, rfl⟩
    refine wp_bind (storeLocal ?_)
    refine wp_bind (storeLocal ?_)
    refine wp_mono ((quiet_ifThen ((localQueue_silent _).popHead slot)).wp (stable_face _)) ?_
    rintro _ _ - rfl
    exact ⟨fun _ => ⟨_, .inr ⟨hown, hx, hz, rfl⟩, rfl⟩, fun hne => absurd rfl hne⟩

theorem ends_localUnlockS (hs : (k.lockWord (laneForTid l.tid)).sentinel = false)
    (hc : (k.lockWord (laneForTid l.tid)).count ≠ 0) :
    Ends (LocalLock.unlockS l) (fun r m' => r = .success ∧
      m' = m.put l.nodeId a (dropReader (laneForTid l.tid) k)) (m.put l.nodeId a k) := by
  have hrelease : Ends (localLockTryReleaseS l.nodeId l.tid) (fun r m' => r.isSome ∧
      m' = m.put l.nodeId a (dropReader (laneForTid l.tid) k)) (m.put l.nodeId a k) := by
    refine wp_bind (loadLocal ?_)
    refine wp_loop (fun lane m' => lane = k.lockWord (laneForTid l.tid) ∧ m' = m.put l.nodeId a k)
      trivial ⟨rfl, rfl⟩ ?_
    rintro _ _ ⟨rfl, rfl⟩
    rw [if_neg (by simp [hs]), if_neg hc]
    refine wp_bind (casLocal (fun _ => ?_) fun hne => absurd rfl hne)
    exact wp_bind (loadLocal ⟨trivial, rfl, rfl⟩)
  refine wp_bind (wp_mono hrelease ?_)
  rintro r _ - ⟨hr, rfl⟩
  obtain ⟨after, rfl⟩ := Option.isSome_iff_exists.mp hr
  dsimp only
  split
  · refine ends_quiet (localQueue_silent _).load fun _ => ?_
    exact ends_quiet (quiet_ifThen (LocalLock.quiet_wakeAfterUnlockExclusive _)) fun _ =>
      ⟨trivial, rfl, rfl⟩
  · exact ⟨trivial, rfl, rfl⟩

theorem ends_localUnlockX {r : Bool} (ho : k.lockXOwner = l.tid) :
    Ends (LocalLock.unlockX r l) (fun res m' => res = .success ∧
      m' = m.put l.nodeId a (leaveX r k)) (m.put l.nodeId a k) := by
  refine wp_bind (loadLocal ?_)
  rw [if_neg (not_not.mpr ho)]
  have hend : ∀ d, Ends (do
      store (Local.xRecursive l.nodeId) 0
      store (Local.lockXOwner l.nodeId) 0
      store (Local.lockWord l.nodeId) .zero
      let waiting ← loadAt (.localQ l.nodeId .step) (localQueue l.nodeId).count
      ifThen (waiting > 0) (LocalLock.wakeAfterUnlockExclusive l.nodeId)
      return Result.success) (fun res m' => res = .success ∧
        m' = m.put l.nodeId a { k with lockWord := .zero, lockXOwner := 0, xRecursive := 0 })
      (m.put l.nodeId a { k with xRecursive := d }) := by
    intro d
    refine wp_bind (storeLocal ?_)
    refine wp_bind (storeLocal ?_)
    refine wp_bind (storeLocal ?_)
    refine ends_quiet (localQueue_silent _).load fun _ => ?_
    exact ends_quiet (quiet_ifThen (LocalLock.quiet_wakeAfterUnlockExclusive _)) fun _ =>
      ⟨trivial, rfl, rfl⟩
  cases r with
  | false =>
    rw [leaveX, if_neg (by simp)]
    exact wp_bind ⟨trivial, hend k.xRecursive⟩
  | true =>
    refine wp_bind (popLocal ?_)
    by_cases hd : 1 < k.xRecursive
    · rw [if_pos hd]
      exact ⟨trivial, rfl, by rw [leaveX, if_pos ⟨rfl, hd⟩]⟩
    · rw [if_neg hd]
      refine wp_mono (hend _) fun _ _ _ h => ⟨h.1, h.2.trans ?_⟩
      rw [leaveX, if_neg fun h => hd h.2]

theorem ends_localTryReleaseSx (hf : (k.lockWord 0).flag = true) :
    Ends (localLockTryReleaseSx l.nodeId) (fun r m' => r.isSome ∧
      m' = m.put l.nodeId a (setSx false k)) (m.put l.nodeId a k) := by
  refine wp_bind (rmwLocal ?_)
  dsimp only
  rw [if_neg (by simp [hf])]
  exact wp_bind (loadLocal ⟨trivial, rfl, rfl⟩)

theorem ends_localUnlockSx {r : Bool} (ho : k.lockSxOwner = l.tid)
    (hf : (k.lockWord 0).flag = true) :
    Ends (LocalLock.unlockSx r l) (fun res m' => res = .success ∧
      m' = m.put l.nodeId a (leaveSx r k)) (m.put l.nodeId a k) := by
  have hpop : Ends (if r then LocalLock.popDepth (Local.sxRecursive l.nodeId) else pure 1)
      (fun old m' => ∃ d, m' = m.put l.nodeId a { k with sxRecursive := d } ∧
        ((r = true ∧ 1 < k.sxRecursive) ∧ 1 < old ∧ d = u32 (k.sxRecursive + 4294967295) ∨
          ¬ (r = true ∧ 1 < k.sxRecursive) ∧ ¬ 1 < old)) (m.put l.nodeId a k) := by
    cases r with
    | false => exact ⟨trivial, k.sxRecursive, rfl, .inr ⟨by simp, by decide⟩⟩
    | true =>
      refine popLocal ⟨u32 (k.sxRecursive + 4294967295), rfl, ?_⟩
      by_cases hd : 1 < k.sxRecursive
      · exact .inl ⟨⟨rfl, hd⟩, hd, rfl⟩
      · exact .inr ⟨fun h => hd h.2, hd⟩
  refine wp_bind (loadLocal ?_)
  rw [if_neg (not_not.mpr ho)]
  refine wp_bind (loadLocal ?_)
  rw [if_neg (by simp [StateWord.sxFlag, hf])]
  refine wp_bind (wp_mono hpop ?_)
  rintro old _ - ⟨d, rfl, ⟨hr, hold, hd⟩ | ⟨hr, hold⟩⟩
  · rw [if_pos hold]
    exact ⟨trivial, rfl, by rw [leaveSx, if_pos hr, hd]⟩
  rw [if_neg hold, leaveSx, if_neg hr]
  refine wp_bind (storeLocal ?_)
  refine wp_bind (storeLocal ?_)
  refine wp_bind (wp_mono (ends_localTryReleaseSx hf) ?_)
  rintro after _ - ⟨hafter, rfl⟩
  obtain ⟨after, rfl⟩ := Option.isSome_iff_exists.mp hafter
  refine ends_quiet (localQueue_silent _).load fun _ => ?_
  split
  · split
    · exact ends_quiet (LocalLock.quiet_wakeAfterUnlockExclusive _) fun _ => ⟨trivial, rfl, rfl⟩
    · refine ends_quiet (localQueue_silent _).peekHeadModeClean fun mode => ?_
      split
      · exact ends_quiet (LocalLock.quiet_wakeAfterUnlockExclusive _) fun _ => ⟨trivial, rfl, rfl⟩
      · exact ⟨trivial, rfl, rfl⟩
  · exact ⟨trivial, rfl, rfl⟩

end LocalLocks

/-! ### The shared object -/

section Global

variable {m : Mem} {l : Location} {n : NodeId} {a : UbRwLock} {k : LocalLock}

/-- The bit of node `n` in `shared_owner_bitmap`. -/
def setBit (n : NodeId) (a : UbRwLock) : UbRwLock :=
  { a with sharedOwnerBitmap := a.sharedOwnerBitmap ||| (1#32 <<< n.val) }

def clearBit (n : NodeId) (a : UbRwLock) : UbRwLock :=
  { a with sharedOwnerBitmap := a.sharedOwnerBitmap &&& ~~~(1#32 <<< n.val) }

theorem not_ge_of_lt {n : NodeId} (hn : n.val < ubMaxNodes) : ¬ n.val ≥ 32 := by
  simp only [ubMaxNodes] at hn
  omega

theorem ends_setSharedOwnerBitmap (hn : n.val < ubMaxNodes) :
    Ends (setSharedOwnerBitmap n) (fun _ m' => m' = m.put n (setBit n a) k) (m.put n a k) := by
  rw [setSharedOwnerBitmap, if_neg (not_ge_of_lt hn)]
  exact wp_bind (seq_rmw seen_shm ⟨trivial, rfl⟩)

theorem ends_clearSharedOwnerBitmap (hn : n.val < ubMaxNodes) :
    Ends (clearSharedOwnerBitmap n) (fun _ m' => m' = m.put n (clearBit n a) k) (m.put n a k) := by
  rw [clearSharedOwnerBitmap, if_neg (not_ge_of_lt hn)]
  exact wp_bind (seq_rmw seen_shm ⟨trivial, rfl⟩)

/-! #### S -/

theorem ends_publishS (hn : n.val < ubMaxNodes) :
    Ends (publishS n) (fun _ m' => m' = m.put n (setBit n a)
      { k with globalReadRefCount := 1, holdGlobal := true, globalState := .held }) (m.put n a k) := by
  refine wp_bind (storeLocal ?_)
  refine wp_bind (storeLocal ?_)
  refine wp_bind (storeLocal ?_)
  refine ends_quiet (quiet_notifyPending n) fun _ => ?_
  exact ends_setSharedOwnerBitmap hn

theorem ends_tryIncGlobalRef :
    Ends (LocalLock.tryIncGlobalRef n) (fun b m' => if b then
        k.globalState = .held ∧ 0 < k.globalReadRefCount ∧
          m' = m.put n a { k with globalReadRefCount := k.globalReadRefCount + 1 }
      else m' = m.put n a k) (m.put n a k) := by
  refine wp_bind (loadLocal ?_)
  split
  · exact ⟨trivial, rfl⟩
  rename_i hstate
  refine wp_bind (loadLocal ?_)
  refine wp_loop (fun ref m' => ref = k.globalReadRefCount ∧ m' = m.put n a k) trivial ⟨rfl, rfl⟩ ?_
  rintro _ _ ⟨rfl, rfl⟩
  split
  · exact ⟨trivial, rfl⟩
  rename_i hpos
  split
  · exact ⟨trivial, rfl⟩
  refine wp_bind (loadLocal ?_)
  split
  · exact ⟨trivial, rfl⟩
  refine wp_bind (casWeakLocal (fun _ => ⟨trivial, ?_⟩) ⟨trivial, rfl, rfl⟩)
  exact ⟨not_not.mp hstate, by omega, rfl⟩

/-- A successful S either follows a published hold of the node or leads; otherwise its local S is
    undone. -/
theorem ends_waitOrClaimGlobalS (hs : (k.lockWord (laneForTid l.tid)).sentinel = false)
    (hc : (k.lockWord (laneForTid l.tid)).count ≠ 0) :
    Ends (waitOrClaimGlobalS l) (fun r m' => (r.1 = .success →
      (r.2 = false ∧ k.globalState = .held ∧ 0 < k.globalReadRefCount ∧
        m' = m.put l.nodeId a { k with globalReadRefCount := k.globalReadRefCount + 1 }) ∨
      (r.2 = true ∧ k.globalState = .idle ∧
        m' = m.put l.nodeId a { k with globalState := .pending })) ∧
      (r.1 ≠ .success → m' = m.put l.nodeId a (dropReader (laneForTid l.tid) k)))
      (m.put l.nodeId a k) := by
  have hleave : ∀ {Q : Result × Bool → Mem → Prop},
      Q (.timeout, false) (m.put l.nodeId a (dropReader (laneForTid l.tid) k)) →
      Ends ((LocalLock.unlockS l).bind fun _ =>
        .ret (.inr (Result.timeout, false) : Unit ⊕ Result × Bool))
        (fun r m' => Sum.elim (fun _ => m' = m.put l.nodeId a k) (fun r => Q r m') r)
        (m.put l.nodeId a k) := by
    intro Q hq
    refine wp_bind (wp_mono (ends_localUnlockS hs hc) ?_)
    rintro _ _ - ⟨-, rfl⟩
    exact ⟨trivial, hq⟩
  refine wp_loop (fun _ m' => m' = m.put l.nodeId a k) trivial rfl ?_
  rintro _ _ rfl
  refine wp_bind (wp_mono ends_tryIncGlobalRef ?_)
  rintro b m' - hb
  cases b with
  | true => exact ⟨trivial, fun _ => .inl ⟨rfl, hb⟩, fun hne => absurd rfl hne⟩
  | false =>
    obtain rfl : m' = m.put l.nodeId a k := hb
    refine wp_bind (loadLocal ?_)
    cases hstate : k.globalState with
    | idle =>
      refine wp_bind (casLocal (fun _ => ⟨trivial, fun _ => .inr ⟨rfl, rfl, rfl⟩,
        fun hne => absurd rfl hne⟩) fun hne => ?_)
      exact absurd hstate hne
    | pending =>
      refine ends_quiet (quiet_waitFollowerS l) fun settled => ?_
      split
      · exact ⟨trivial, rfl⟩
      · exact hleave ⟨by simp, fun _ => rfl⟩
    | held =>
      refine ends_quiet quiet_expired fun late => ?_
      split
      · exact hleave ⟨by simp, fun _ => rfl⟩
      · exact ⟨trivial, rfl⟩

/-- A reservation that names nobody or a thread of a registered node. -/
def Reservable (a : UbRwLock) : Prop :=
  (a.reserveLockOwner = lockInvalidOwner ∨ Named a.reserveLockOwner) ∧
    ∀ n : NodeId, n.val < ubMaxNodes → a.nodeRegistry n = ubLockAddr

/-- Asking for a delayed hold changes nothing. -/
theorem ends_delayReleaseUbLock (mode : Mode) (hr : Reservable a) :
    Ends (delayReleaseUbLock mode l) (fun _ m' => m' = m.put n a k) (m.put n a k) := by
  refine wp_bind (loadShm ?_)
  split
  · exact ⟨trivial, rfl⟩
  rename_i hne
  obtain ⟨i, hi⟩ := hr.1.resolve_left hne
  have hdec : ∀ h, (⟨a.reserveLockOwner / 4294967296 % 256, h⟩ : NodeId) = i :=
    fun h => Fin.ext hi.decode
  simp only [hdec]
  split
  · exact ⟨trivial, rfl⟩
  have hlt : ¬ a.reserveLockOwner / 4294967296 % 256 ≥ ubMaxNodes := by
    rw [hi.decode]
    exact Nat.not_le.mpr hi.1
  rw [if_neg hlt]
  refine wp_bind (loadShm ?_)
  rw [hr.2 i hi.1, if_neg (by decide), if_neg (by decide)]
  have hquiet : Quiet SameFace Label.Plain
      (notifyUnlock ⟨l.nodeId, i, 0, ubLockAddr, .release, mode⟩) :=
    .bind quiet_load fun _ => .ite trivial (quiet_sendWithRetry _)
  exact hquiet.wp (stable_face _)

theorem ends_announce (mode : Mode) (hr : Reservable a) :
    Ends (do let _ ← delayReleaseUbLock mode l) (fun _ m' => m' = m.put n a k) (m.put n a k) :=
  wp_bind (wp_mono (ends_delayReleaseUbLock mode hr) fun _ _ _ h => ⟨trivial, h⟩)

/-- A leader that gives up clears what it has claimed for its node. -/
theorem ends_cleanupAndUnlockLocal (hs : (k.lockWord (laneForTid l.tid)).sentinel = false)
    (hc : (k.lockWord (laneForTid l.tid)).count ≠ 0) :
    Ends (cleanupAndUnlockLocal l) (fun _ m' => m' = m.put l.nodeId a
      { dropReader (laneForTid l.tid) k with
        globalState := .idle, globalReadRefCount := 0, holdGlobal := false }) (m.put l.nodeId a k) := by
  refine wp_bind (storeLocal ?_)
  refine wp_bind (storeLocal ?_)
  refine wp_bind (storeLocal ?_)
  refine ends_quiet (quiet_notifyPending _) fun _ => ?_
  refine wp_bind (wp_mono (ends_localUnlockS hs hc) ?_)
  rintro _ _ - ⟨-, rfl⟩
  exact ⟨trivial, rfl⟩

theorem ends_spinWaitS (hn : l.nodeId.val < ubMaxNodes) (hr : Reservable a)
    (hs : (k.lockWord (laneForTid l.tid)).sentinel = false)
    (hc : (k.lockWord (laneForTid l.tid)).count ≠ 0) :
    Ends (spinWaitSLoop l).run (fun r m' =>
      (r = .success → 0 < a.lockWord ∧
        m' = m.put l.nodeId (setBit l.nodeId { a with lockWord := a.lockWord - 1 })
          { k with globalReadRefCount := 1, holdGlobal := true, globalState := .held }) ∧
      (r ≠ .success → m' = m.put l.nodeId a
        { dropReader (laneForTid l.tid) k with
          globalState := .idle, globalReadRefCount := 0, holdGlobal := false }))
      (m.put l.nodeId a k) := by
  refine ends_run (A := fun m' => 0 < a.lockWord ∧
    m' = m.put l.nodeId { a with lockWord := a.lockWord - 1 } k) (spinWaitSLoop_waits l) ?_ ?_
    (ends_announce .s hr) (ends_cleanupAndUnlockLocal hs hc)
    fun m' r hm hr => ⟨fun hs => absurd hs hr, fun _ => hm⟩
  · refine wp_bind (loadShm ?_)
    split
    · rename_i hpos
      exact wp_bind (casWeakShm (fun _ => ⟨trivial, hpos, rfl⟩) ⟨trivial, rfl⟩)
    · exact ⟨trivial, rfl⟩
  · rintro b slot _ ⟨hpos, rfl⟩
    refine ends_quiet (quiet_ifThen (sharedQueue_silent.popHead slot)) fun _ => ?_
    exact wp_mono (ends_publishS hn) fun _ _ _ h => ⟨fun _ => ⟨hpos, h⟩, fun hne => absurd rfl hne⟩

theorem ends_spinWaitX (r : Bool) (hr : Reservable a) (ho : k.lockXOwner = l.tid) :
    Ends (spinWaitLoop gripX r l).run (fun res m' =>
      (res = .success → a.lockWord = xLockDecr ∧
        m' = m.put l.nodeId { a with lockWord := 0, lockOwnerX := makeGlobalOwner l, xRecursive := 1 }
          { k with holdGlobal := true }) ∧
      (res ≠ .success → m' = m.put l.nodeId a (leaveX r k))) (m.put l.nodeId a k) := by
  refine ends_run (A := fun m' => a.lockWord = xLockDecr ∧
    m' = m.put l.nodeId { a with lockWord := 0 } k) (spinWaitLoop_waits gripX r l) ?_ ?_
    (ends_announce .x hr) (wp_bind (wp_mono (ends_localUnlockX ho) fun _ _ _ h => ⟨trivial, h.2⟩))
    fun m' r hm hr => ⟨fun hs => absurd hs hr, fun _ => hm⟩
  · refine wp_bind (loadShm ?_)
    split
    · rename_i hfull
      exact wp_bind (casWeakShm (fun _ => ⟨trivial, hfull, rfl⟩) ⟨trivial, rfl⟩)
    · exact ⟨trivial, rfl⟩
  · rintro b slot _ ⟨hfull, rfl⟩
    dsimp only [spinWaitLoop, gripX]
    refine wp_bind (storeShm ?_)
    refine wp_bind (storeShm ?_)
    refine wp_bind (storeLocal ?_)
    refine wp_mono ((quiet_ifThen (sharedQueue_silent.popHead slot)).wp (stable_face _)) ?_
    rintro _ _ - rfl
    exact ⟨fun _ => ⟨hfull, rfl⟩, fun hne => absurd rfl hne⟩

theorem ends_spinWaitSx (r : Bool) (hr : Reservable a) (ho : k.lockSxOwner = l.tid)
    (hf : (k.lockWord 0).flag = true) :
    Ends (spinWaitLoop gripSx r l).run (fun res m' =>
      (res = .success → xLockHalfDecr < a.lockWord ∧
        m' = m.put l.nodeId
          { a with
            lockWord := a.lockWord - xLockHalfDecr
            lockOwnerSx := makeGlobalOwner l
            sxRecursive := 1 } { k with holdGlobal := true }) ∧
      (res ≠ .success → m' = m.put l.nodeId a (leaveSx r k))) (m.put l.nodeId a k) := by
  refine ends_run (A := fun m' => xLockHalfDecr < a.lockWord ∧
    m' = m.put l.nodeId { a with lockWord := a.lockWord - xLockHalfDecr } k)
    (spinWaitLoop_waits gripSx r l) ?_ ?_ (ends_announce .sx hr)
    (wp_bind (wp_mono (ends_localUnlockSx ho hf) fun _ _ _ h => ⟨trivial, h.2⟩))
    fun m' r hm hr => ⟨fun hs => absurd hs hr, fun _ => hm⟩
  · refine wp_bind (loadShm ?_)
    split
    · rename_i hhalf
      exact wp_bind (casWeakShm (fun _ => ⟨trivial, hhalf, rfl⟩) ⟨trivial, rfl⟩)
    · exact ⟨trivial, rfl⟩
  · rintro b slot _ ⟨hhalf, rfl⟩
    dsimp only [spinWaitLoop, gripSx]
    refine wp_bind (storeShm ?_)
    refine wp_bind (storeShm ?_)
    refine wp_bind (storeLocal ?_)
    refine wp_mono ((quiet_ifThen (sharedQueue_silent.popHead slot)).wp (stable_face _)) ?_
    rintro _ _ - rfl
    exact ⟨fun _ => ⟨hhalf, rfl⟩, fun hne => absurd rfl hne⟩

/-! #### Tokens -/

/-- The shared object after a delayed hold of node `n` is given back. -/
def giveBack (n : NodeId) (a : UbRwLock) : Mode → UbRwLock
  | .s => clearBit n { a with reserveLockOwner := lockInvalidOwner, lockWord := a.lockWord + 1 }
  | .sx => { a with
      reserveLockOwner := lockInvalidOwner, lockOwnerSx := lockInvalidOwner, sxRecursive := 0,
      lockWord := a.lockWord + xLockHalfDecr }
  | .x => { a with
      reserveLockOwner := lockInvalidOwner, lockOwnerX := lockInvalidOwner, xRecursive := 0,
      lockWord := xLockDecr }
  | .i => { a with reserveLockOwner := lockInvalidOwner }

theorem ends_delayUnlock (mode : Mode) (hn : n.val < ubMaxNodes) :
    Ends (delayUnlock mode n) (fun _ m' => m' = m.put n (giveBack n a mode) k) (m.put n a k) := by
  unfold delayUnlock
  rw [if_neg (Nat.not_le.mpr hn)]
  refine wp_bind (storeShm ?_)
  cases mode with
  | s =>
    refine wp_bind (seq_rmw seen_shm ?_)
    split
    · refine ends_quiet (quiet_wakeIfWaiting _) fun _ => ?_
      exact wp_bind (wp_mono (ends_clearSharedOwnerBitmap hn) fun _ _ _ h => ⟨trivial, h⟩)
    · exact wp_bind (wp_mono (ends_clearSharedOwnerBitmap hn) fun _ _ _ h => ⟨trivial, h⟩)
  | sx =>
    refine wp_bind (storeShm ?_)
    refine wp_bind (storeShm ?_)
    refine wp_bind (seq_rmw seen_shm ?_)
    exact ends_quiet (quiet_wakeAfterSx _ _) fun _ => ⟨trivial, rfl⟩
  | x =>
    refine wp_bind (storeShm ?_)
    refine wp_bind (storeShm ?_)
    refine wp_bind (storeShm ?_)
    exact ends_quiet (quiet_wakeIfWaiting _) fun _ => ⟨trivial, rfl⟩
  | i => exact ⟨trivial, rfl⟩

/-- A lock call takes the token of its node: it inherits it, gives it back, or finds none. -/
theorem ends_delayReleaseLocalLock (mode : Mode) (hn : l.nodeId.val < ubMaxNodes) :
    Ends (delayReleaseLocalLock mode l) (fun r m' =>
      (k.localIsReserveLock = .i ∧ r = .success ∧ m' = m.put l.nodeId a k) ∨
      (k.localIsReserveLock ≠ .i ∧ k.localIsReserveLock = mode ∧ r = .conflict ∧
        m' = m.put l.nodeId { a with reserveLockOwner := lockInvalidOwner }
          { k with localIsReserveLock := .i }) ∨
      (k.localIsReserveLock ≠ .i ∧ k.localIsReserveLock ≠ mode ∧ r = .success ∧
        m' = m.put l.nodeId (giveBack l.nodeId a k.localIsReserveLock)
          { k with localIsReserveLock := .i })) (m.put l.nodeId a k) := by
  refine wp_bind (rmwLocal ?_)
  dsimp only
  split
  · rename_i hi
    have hk : { k with localIsReserveLock := .i } = k := by
      rw [← hi]
    rw [hk]
    exact ⟨trivial, .inl ⟨hi, rfl, rfl⟩⟩
  rename_i hi
  split
  · rename_i hmode
    exact wp_bind (storeShm ⟨trivial, .inr (.inl ⟨hi, hmode, rfl, rfl⟩)⟩)
  · rename_i hmode
    refine wp_bind (wp_mono (ends_delayUnlock _ hn) fun _ _ _ h => ⟨trivial, ?_⟩)
    exact .inr (.inr ⟨hi, hmode, rfl, h⟩)

/-- The delayed branch of an unlock makes the reservation. -/
theorem ends_tryDelay (p : Policy) :
    Ends (tryDelay p l) (fun b m' =>
      (b = true ∧ p.allowDelayRelease = true ∧ a.reserveLockOwner = lockInvalidOwner ∧
        m' = m.put n { a with reserveLockOwner := makeGlobalOwner l } k) ∨
      (b = false ∧ m' = m.put n a k)) (m.put n a k) := by
  unfold tryDelay
  split
  · exact ⟨trivial, .inr ⟨rfl, rfl⟩⟩
  rename_i hdelay
  refine ends_quiet sharedQueue_silent.load fun _ => ?_
  split
  · exact ⟨trivial, .inr ⟨rfl, rfl⟩⟩
  refine ends_quiet (localQueue_silent _).load fun _ => ?_
  split
  · exact ⟨trivial, .inr ⟨rfl, rfl⟩⟩
  refine wp_bind (casShm (fun hx => ⟨trivial, .inl ⟨rfl, by simpa using hdelay, hx, rfl⟩⟩) fun _ => ?_)
  exact ⟨trivial, .inr ⟨rfl, rfl⟩⟩

/-! #### Unlocking -/

/-- The last S of a node: the unit goes back, or stays as a token. -/
theorem ends_releaseS (p : Policy) (hn : l.nodeId.val < ubMaxNodes) (hw : a.lockWord + 1 ≤ xLockDecr) :
    Ends (releaseS p l) (fun r m' => r = .success ∧
      ((p.allowDelayRelease = true ∧ a.reserveLockOwner = lockInvalidOwner ∧
        m' = m.put l.nodeId { a with reserveLockOwner := makeGlobalOwner l }
          { k with localIsReserveLock := .s }) ∨
      m' = m.put l.nodeId (clearBit l.nodeId { a with lockWord := a.lockWord + 1 })
        { k with localIsReserveLock := .i })) (m.put l.nodeId a k) := by
  refine wp_bind (wp_mono (ends_tryDelay p) ?_)
  rintro b _ - (⟨rfl, hp, hv, rfl⟩ | ⟨rfl, rfl⟩)
  · exact wp_bind (storeLocal ⟨trivial, rfl, .inl ⟨hp, hv, rfl⟩⟩)
  refine wp_bind (storeLocal ?_)
  refine wp_bind (fetchShm ?_)
  rw [if_neg (by omega)]
  have hclear : Ends ((clearSharedOwnerBitmap l.nodeId).bind fun _ => .ret Result.success)
      (fun r m' => r = .success ∧
      ((p.allowDelayRelease = true ∧ a.reserveLockOwner = lockInvalidOwner ∧
        m' = m.put l.nodeId { a with reserveLockOwner := makeGlobalOwner l }
          { k with localIsReserveLock := .s }) ∨
      m' = m.put l.nodeId (clearBit l.nodeId { a with lockWord := a.lockWord + 1 })
        { k with localIsReserveLock := .i }))
      (m.put l.nodeId { a with lockWord := a.lockWord + 1 } { k with localIsReserveLock := .i }) :=
    wp_bind (wp_mono (ends_clearSharedOwnerBitmap hn) fun _ _ _ h => ⟨trivial, rfl, .inr h⟩)
  split
  · exact ends_quiet (quiet_wakeIfWaiting l) fun _ => hclear
  · exact hclear

theorem ends_unlockS (p : Policy) (hn : l.nodeId.val < ubMaxNodes)
    (hfound : m.registered l.nodeId = true) (hs : (k.lockWord (laneForTid l.tid)).sentinel = false)
    (hc : (k.lockWord (laneForTid l.tid)).count ≠ 0) (href : 0 < k.globalReadRefCount)
    (hw : a.lockWord + 1 ≤ xLockDecr) :
    Ends (unlockS p l) (fun r m' => r = .success ∧
      ((1 < k.globalReadRefCount ∧ m' = m.put l.nodeId a
        { dropReader (laneForTid l.tid) k with globalReadRefCount := k.globalReadRefCount - 1 }) ∨
      (k.globalReadRefCount = 1 ∧ ∃ state, (state = .idle ∨ state = k.globalState ∧ state ≠ .held) ∧
        ((p.allowDelayRelease = true ∧ a.reserveLockOwner = lockInvalidOwner ∧
          m' = m.put l.nodeId { a with reserveLockOwner := makeGlobalOwner l }
            { dropReader (laneForTid l.tid) k with
              globalReadRefCount := 0, localIsReserveLock := .s, holdGlobal := false
              globalState := state }) ∨
        m' = m.put l.nodeId (clearBit l.nodeId { a with lockWord := a.lockWord + 1 })
          { dropReader (laneForTid l.tid) k with
            globalReadRefCount := 0, localIsReserveLock := .i, holdGlobal := false
            globalState := state }))))
      (m.put l.nodeId a k) := by
  rw [unlockS, if_neg (by simpa [verifyParam] using hn)]
  have hreg : Seen Mem.face (registeredAt l.nodeId) :=
  ⟨fun _ => rfl, fun _ _ => rfl⟩
  refine wp_bind (seq_load hreg ?_)
  have hget : (registeredAt l.nodeId).get (m.put l.nodeId a k) = true := hfound
  rw [hget, if_neg (by decide)]
  refine wp_bind (loadLocal ?_)
  dsimp only
  rw [if_neg (by simp [hs, hc])]
  refine wp_bind (rmwLocal ?_)
  dsimp only
  split
  · rename_i hmore
    exact wp_mono (ends_localUnlockS hs hc) fun _ _ _ h => ⟨h.1, .inl ⟨hmore, h.2⟩⟩
  rename_i hmore
  rw [if_neg (by omega)]
  have hone : k.globalReadRefCount = 1 := by omega
  -- closing the node: only `global_state_` may still differ
  have hclose : ∀ (a' : UbRwLock) (k' : LocalLock),
      k'.lockWord = k.lockWord → Ends (do
        store (Local.holdGlobal l.nodeId) false
        let _ ← cas (Local.globalState l.nodeId) .held .idle
        notifyPending l.nodeId
        store (Local.readCount l.nodeId) 0
        LocalLock.unlockS l) (fun r m' => r = .success ∧
          ∃ state, (state = .idle ∨ state = k'.globalState ∧ state ≠ .held) ∧
            m' = m.put l.nodeId a'
              { dropReader (laneForTid l.tid) k' with holdGlobal := false, globalState := state })
        (m.put l.nodeId a' k') := by
    intro a' k' hk'
    refine wp_bind (storeLocal ?_)
    have htail : ∀ state, (state = .idle ∨ state = k'.globalState ∧ state ≠ .held) → Ends (do
        notifyPending l.nodeId
        store (Local.readCount l.nodeId) 0
        LocalLock.unlockS l) (fun r m' => r = .success ∧
          ∃ state, (state = .idle ∨ state = k'.globalState ∧ state ≠ .held) ∧
            m' = m.put l.nodeId a'
              { dropReader (laneForTid l.tid) k' with holdGlobal := false, globalState := state })
        (m.put l.nodeId a' { k' with holdGlobal := false, globalState := state }) := by
      intro state hstate
      refine ends_quiet (quiet_notifyPending _) fun _ => ?_
      refine ends_quiet (.write trivial fun _ => hides_local rfl) fun _ => ?_
      refine wp_mono (ends_localUnlockS (by rw [hk']; exact hs) (by rw [hk']; exact hc)) ?_
      rintro r _ - ⟨hr, rfl⟩
      exact ⟨hr, state, hstate, rfl⟩
    refine wp_bind (casLocal (fun _ => htail .idle (.inl rfl)) fun hne => ?_)
    exact htail k'.globalState (.inr ⟨rfl, hne⟩)
  refine wp_bind (wp_mono (ends_releaseS p hn hw) ?_)
  rintro r _ - ⟨rfl, h⟩
  rw [if_neg (by decide)]
  rcases h with ⟨hp, hv, rfl⟩ | rfl
  · refine wp_mono (hclose _ _ (by rfl)) ?_
    rintro r _ - ⟨hr, state, hstate, rfl⟩
    refine ⟨hr, .inr ⟨hone, state, hstate, .inl ⟨hp, hv, ?_⟩⟩⟩
    simp [dropReader, hone]
  · refine wp_mono (hclose _ _ (by rfl)) ?_
    rintro r _ - ⟨hr, state, hstate, rfl⟩
    refine ⟨hr, .inr ⟨hone, state, hstate, .inr ?_⟩⟩
    simp [dropReader, hone]

theorem ends_lookup {α : Type} {k' : Bool → Call α} {Q : α → Mem → Prop}
    (hfound : m.registered l.nodeId = true) (h : Ends (k' true) Q (m.put l.nodeId a k)) :
    Ends ((load (registeredAt l.nodeId)).bind k') Q (m.put l.nodeId a k) := by
  have hreg : Seen Mem.face (registeredAt l.nodeId) :=
  ⟨fun _ => rfl, fun _ _ => rfl⟩
  refine wp_bind (seq_load hreg ?_)
  have hget : (registeredAt l.nodeId).get (m.put l.nodeId a k) = true := hfound
  rw [hget]
  exact h

/-- The shared object after X is released. -/
def freeX (a : UbRwLock) : UbRwLock :=
  { a with lockOwnerX := lockInvalidOwner, xRecursive := 0, lockWord := xLockDecr }

/-- The shared object after SX is released. -/
def freeSx (a : UbRwLock) : UbRwLock :=
  { a with
    lockOwnerSx := lockInvalidOwner, sxRecursive := 0, lockWord := a.lockWord + xLockHalfDecr }

theorem ends_releaseX {Q : Bool → Mem → Prop} (p : Policy) (ho : a.lockOwnerX = makeGlobalOwner l)
    (hdeep : p.recursive = true ∧ 1 < a.xRecursive →
      Q true (m.put l.nodeId { a with xRecursive := u32 (a.xRecursive + 4294967295) } k))
    (hfree : ¬ (p.recursive = true ∧ 1 < a.xRecursive) →
      Q true (m.put l.nodeId (freeX a) { k with localIsReserveLock := .i, holdGlobal := false })) :
    Ends (releaseX p l) Q (m.put l.nodeId a k) := by
  refine wp_bind (loadShm ?_)
  rw [if_neg (not_not.mpr ho)]
  have hend : ∀ d, ¬ (p.recursive = true ∧ 1 < a.xRecursive) → Ends (do
      store (Local.localIsReserveLock l.nodeId) .i
      store (Local.holdGlobal l.nodeId) false
      store Shm.lockOwnerX lockInvalidOwner
      store Shm.xRecursive 0
      store Shm.lockWord xLockDecr
      wakeIfWaiting l
      return true) Q (m.put l.nodeId { a with xRecursive := d } k) := by
    intro d hd
    refine wp_bind (storeLocal ?_)
    refine wp_bind (storeLocal ?_)
    refine wp_bind (storeShm ?_)
    refine wp_bind (storeShm ?_)
    refine wp_bind (storeShm ?_)
    exact ends_quiet (quiet_wakeIfWaiting l) fun _ => ⟨trivial, hfree hd⟩
  cases hr : p.recursive with
  | false => exact wp_bind ⟨trivial, hend a.xRecursive (by simp [hr])⟩
  | true =>
    refine wp_bind (popShm ?_)
    by_cases hd : 1 < a.xRecursive
    · rw [if_pos hd]
      exact ⟨trivial, hdeep ⟨hr, hd⟩⟩
    · rw [if_neg hd]
      exact hend _ fun h => hd h.2

theorem ends_unlockX (p : Policy) (hn : l.nodeId.val < ubMaxNodes)
    (hfound : m.registered l.nodeId = true) (ho : a.lockOwnerX = makeGlobalOwner l)
    (hk : k.lockXOwner = l.tid) :
    Ends (unlockX p l) (fun r m' => r = .success ∧
      ((p.allowDelayRelease = true ∧ a.reserveLockOwner = lockInvalidOwner ∧
        m' = m.put l.nodeId { a with reserveLockOwner := makeGlobalOwner l }
          (leaveX p.recursive
            { k with localIsReserveLock := .x, holdGlobal := false, globalState := .idle })) ∨
      ((p.recursive = true ∧ 1 < a.xRecursive) ∧
        m' = m.put l.nodeId { a with xRecursive := u32 (a.xRecursive + 4294967295) }
          (leaveX p.recursive { k with globalState := .idle })) ∨
      (¬ (p.recursive = true ∧ 1 < a.xRecursive) ∧
        m' = m.put l.nodeId (freeX a)
          (leaveX p.recursive
            { k with localIsReserveLock := .i, holdGlobal := false, globalState := .idle }))))
      (m.put l.nodeId a k) := by
  rw [unlockX, if_neg (by simpa [verifyParam] using hn)]
  refine ends_lookup hfound ?_
  rw [if_neg (by decide)]
  refine wp_bind (wp_mono (ends_tryDelay p) ?_)
  rintro b _ - (⟨rfl, hp, hv, rfl⟩ | ⟨rfl, rfl⟩)
  · refine wp_bind (storeLocal ?_)
    refine wp_bind (storeLocal ?_)
    refine wp_bind (storeLocal ?_)
    refine wp_mono (ends_localUnlockX hk) ?_
    rintro r _ - ⟨hr, rfl⟩
    exact ⟨hr, .inl ⟨hp, hv, rfl⟩⟩
  · refine wp_bind (ends_releaseX p ho (fun hd => ?_) fun hd => ?_)
    all_goals
      refine wp_bind (storeLocal (wp_mono (ends_localUnlockX hk) ?_))
      rintro r _ - ⟨hr, rfl⟩
    · exact ⟨hr, .inr (.inl ⟨hd, rfl⟩)⟩
    · exact ⟨hr, .inr (.inr ⟨hd, rfl⟩)⟩

/-- `some false` means that waiters are counted but the head of the queue is not ready. -/
theorem ends_releaseSx {Q : Option Bool → Mem → Prop} (p : Policy)
    (ho : a.lockOwnerSx = makeGlobalOwner l)
    (hdeep : p.recursive = true ∧ 1 < a.sxRecursive →
      Q (some true) (m.put l.nodeId { a with sxRecursive := u32 (a.sxRecursive + 4294967295) } k))
    (hfree : ¬ (p.recursive = true ∧ 1 < a.sxRecursive) → ∀ b,
      Q (some b) (m.put l.nodeId (freeSx a) { k with localIsReserveLock := .i, holdGlobal := false })) :
    Ends (releaseSx p l) Q (m.put l.nodeId a k) := by
  refine wp_bind (loadShm ?_)
  rw [if_neg (not_not.mpr ho)]
  have hend : ∀ d, ¬ (p.recursive = true ∧ 1 < a.sxRecursive) → Ends (do
      store (Local.localIsReserveLock l.nodeId) .i
      store (Local.holdGlobal l.nodeId) false
      store Shm.lockOwnerSx lockInvalidOwner
      store Shm.sxRecursive 0
      let old ← fetch Shm.lockWord (· + xLockHalfDecr)
      let goOn ← wakeAfterSx (old + xLockHalfDecr) l
      return some goOn) Q (m.put l.nodeId { a with sxRecursive := d } k) := by
    intro d hd
    refine wp_bind (storeLocal ?_)
    refine wp_bind (storeLocal ?_)
    refine wp_bind (storeShm ?_)
    refine wp_bind (storeShm ?_)
    refine wp_bind (seq_rmw seen_shm ?_)
    exact ends_quiet (quiet_wakeAfterSx _ l) fun b => ⟨trivial, hfree hd b⟩
  cases hr : p.recursive with
  | false => exact wp_bind ⟨trivial, hend a.sxRecursive (by simp [hr])⟩
  | true =>
    refine wp_bind (popShm ?_)
    by_cases hd : 1 < a.sxRecursive
    · rw [if_pos hd]
      exact ⟨trivial, hdeep ⟨hr, hd⟩⟩
    · rw [if_neg hd]
      exact hend _ fun h => hd h.2

/-- The last case is the early return in front of an unready queue head: the local lock stays
    taken. -/
theorem ends_unlockSx (p : Policy) (hn : l.nodeId.val < ubMaxNodes)
    (hfound : m.registered l.nodeId = true) (ho : a.lockOwnerSx = makeGlobalOwner l)
    (hk : k.lockSxOwner = l.tid) (hf : (k.lockWord 0).flag = true) :
    Ends (unlockSx p l) (fun r m' => r = .success ∧
      ((p.allowDelayRelease = true ∧ a.reserveLockOwner = lockInvalidOwner ∧
        m' = m.put l.nodeId { a with reserveLockOwner := makeGlobalOwner l }
          (leaveSx p.recursive
            { k with localIsReserveLock := .sx, holdGlobal := false, globalState := .idle })) ∨
      ((p.recursive = true ∧ 1 < a.sxRecursive) ∧
        m' = m.put l.nodeId { a with sxRecursive := u32 (a.sxRecursive + 4294967295) }
          (leaveSx p.recursive { k with globalState := .idle })) ∨
      (¬ (p.recursive = true ∧ 1 < a.sxRecursive) ∧
        m' = m.put l.nodeId (freeSx a)
          (leaveSx p.recursive
            { k with localIsReserveLock := .i, holdGlobal := false, globalState := .idle })) ∨
      (¬ (p.recursive = true ∧ 1 < a.sxRecursive) ∧
        m' = m.put l.nodeId (freeSx a) { k with localIsReserveLock := .i, holdGlobal := false })))
      (m.put l.nodeId a k) := by
  rw [unlockSx, if_neg (by simpa [verifyParam] using hn)]
  refine ends_lookup hfound ?_
  rw [if_neg (by decide)]
  refine wp_bind (wp_mono (ends_tryDelay p) ?_)
  rintro b _ - (⟨rfl, hp, hv, rfl⟩ | ⟨rfl, rfl⟩)
  · refine wp_bind (storeLocal ?_)
    refine wp_bind (storeLocal ?_)
    refine wp_bind (storeLocal ?_)
    refine wp_mono (ends_localUnlockSx hk hf) ?_
    rintro r _ - ⟨hr, rfl⟩
    exact ⟨hr, .inl ⟨hp, hv, rfl⟩⟩
  · refine wp_bind (ends_releaseSx p ho (fun hd => ?_) fun hd b => ?_)
    · refine wp_bind (storeLocal (wp_mono (ends_localUnlockSx hk hf) ?_))
      rintro r _ - ⟨hr, rfl⟩
      exact ⟨hr, .inr (.inl ⟨hd, rfl⟩)⟩
    cases b with
    | false => exact ⟨trivial, rfl, .inr (.inr (.inr ⟨hd, rfl⟩))⟩
    | true =>
      refine wp_bind (storeLocal (wp_mono (ends_localUnlockSx hk hf) ?_))
      rintro r _ - ⟨hr, rfl⟩
      exact ⟨hr, .inr (.inr (.inl ⟨hd, rfl⟩))⟩

/-! #### Locking -/

/-- The shared object after a lock call has given back a token of another mode. -/
def redeem (n : NodeId) (a : UbRwLock) (mode : Mode) : UbRwLock :=
  if mode = .i then a else giveBack n a mode

theorem Reservable.redeem (hr : Reservable a) (mode : Mode) : Reservable (redeem n a mode) := by
  unfold Alone.redeem
  split
  · exact hr
  · cases mode <;> exact ⟨.inl rfl, hr.2⟩

/-- A lock call inherits a token of its mode, and gives back any other. -/
theorem ends_takeToken {mode : Mode} (hmode : mode ≠ .i) (hn : l.nodeId.val < ubMaxNodes) :
    Ends (delayReleaseLocalLock mode l) (fun r m' =>
      (k.localIsReserveLock = mode ∧ r = .conflict ∧
        m' = m.put l.nodeId { a with reserveLockOwner := lockInvalidOwner }
          { k with localIsReserveLock := .i }) ∨
      (k.localIsReserveLock ≠ mode ∧ r = .success ∧
        m' = m.put l.nodeId (redeem l.nodeId a k.localIsReserveLock)
          { k with localIsReserveLock := .i })) (m.put l.nodeId a k) := by
  refine wp_mono (ends_delayReleaseLocalLock mode hn) ?_
  rintro r _ - (⟨hi, hr, rfl⟩ | ⟨hi, htok, hr, rfl⟩ | ⟨hi, htok, hr, rfl⟩)
  · refine .inr ⟨by rw [hi]; exact hmode.symm, hr, ?_⟩
    rw [redeem, if_pos hi, ← hi]
  · exact .inl ⟨htok, hr, rfl⟩
  · exact .inr ⟨htok, hr, by rw [redeem, if_neg hi]⟩

/-- `lock_s` by a follower or a leader of its node; a leader that gives up clears `hold_global`. -/
theorem ends_lockS (hn : l.nodeId.val < ubMaxNodes) (hfound : m.registered l.nodeId = true)
    (hr : Reservable a) :
    Ends (lockS l) (fun r m' =>
      (r = .success → StateWord.xFlag k.lockWord = false ∧
        ((k.globalState = .held ∧ 0 < k.globalReadRefCount ∧ m' = m.put l.nodeId a
          { addReader (laneForTid l.tid) k with globalReadRefCount := k.globalReadRefCount + 1 }) ∨
        (k.globalState = .idle ∧ ∃ a',
          ((k.localIsReserveLock = .s ∧ a' = { a with reserveLockOwner := lockInvalidOwner }) ∨
          (k.localIsReserveLock ≠ .s ∧ 0 < (redeem l.nodeId a k.localIsReserveLock).lockWord ∧
            a' = { redeem l.nodeId a k.localIsReserveLock with
              lockWord := (redeem l.nodeId a k.localIsReserveLock).lockWord - 1 })) ∧
          m' = m.put l.nodeId (setBit l.nodeId a')
            { addReader (laneForTid l.tid) k with
              globalReadRefCount := 1, holdGlobal := true, globalState := .held
              localIsReserveLock := .i }))) ∧
      (r ≠ .success → m' = m.put l.nodeId a k ∨
        (StateWord.xFlag k.lockWord = false ∧ k.globalState = .idle ∧ k.localIsReserveLock ≠ .s ∧
          m' = m.put l.nodeId (redeem l.nodeId a k.localIsReserveLock)
            { k with
              globalReadRefCount := 0, holdGlobal := false, globalState := .idle
              localIsReserveLock := .i }))) (m.put l.nodeId a k) := by
  rw [lockS, if_neg (by simpa [verifyParam] using hn)]
  refine ends_lookup hfound ?_
  rw [if_neg (by decide)]
  refine wp_bind (wp_mono ends_localLockS ?_)
  rintro r m₁ - ⟨hyes, hno⟩
  split
  · rename_i hne
    exact ⟨trivial, fun hs => absurd hs hne, fun _ => .inl (hno hne)⟩
  rename_i hok
  obtain ⟨hx, hs, rfl⟩ := hyes (not_not.mp hok)
  have hs' : ((addReader (laneForTid l.tid) k).lockWord (laneForTid l.tid)).sentinel = false := by
    simpa [addReader] using hs
  have hc' : ((addReader (laneForTid l.tid) k).lockWord (laneForTid l.tid)).count ≠ 0 := by
    simp [addReader]
  refine wp_bind (wp_mono (ends_waitOrClaimGlobalS hs' hc') ?_)
  rintro ⟨r, leader⟩ m₂ - ⟨hyes, hno⟩
  dsimp only at hyes hno ⊢
  split
  · rename_i hret
    refine ⟨trivial, fun hs => ⟨hx, ?_⟩, fun hne => .inl ?_⟩
    · rcases hyes hs with ⟨-, hstate, href, rfl⟩ | ⟨hl, -⟩
      · exact .inl ⟨hstate, href, rfl⟩
      · simp [hs, hl] at hret
    · rw [hno hne, dropReader_addReader]
  rename_i hret
  simp only [not_or, not_not, Bool.not_eq_true', Bool.not_eq_false] at hret
  obtain ⟨rfl, rfl⟩ := hret
  obtain ⟨-, hidle, rfl⟩ := (hyes rfl).resolve_left (by simp)
  refine wp_bind (wp_mono (ends_takeToken (by decide) hn) ?_)
  rintro r m₃ - (⟨htok, rfl, rfl⟩ | ⟨htok, rfl, rfl⟩)
  · rw [if_pos rfl]
    refine wp_bind (wp_mono (ends_publishS hn) ?_)
    rintro _ _ - rfl
    exact ⟨trivial, fun _ => ⟨hx, .inr ⟨hidle, _, .inl ⟨htok, rfl⟩, rfl⟩⟩, fun hne => absurd rfl hne⟩
  · rw [if_neg (by decide)]
    refine wp_mono (ends_spinWaitS hn (hr.redeem _) hs' hc') ?_
    rintro r _ - ⟨hyes, hno⟩
    refine ⟨fun hs => ⟨hx, .inr ⟨hidle, ?_⟩⟩, fun hne => .inr ⟨hx, hidle, htok, ?_⟩⟩
    · obtain ⟨hpos, rfl⟩ := hyes hs
      exact ⟨_, .inr ⟨htok, hpos, rfl⟩, rfl⟩
    · rw [hno hne]
      have hword : (dropReader (laneForTid l.tid) (addReader (laneForTid l.tid) k)).lockWord
          = k.lockWord := congrArg LocalLock.lockWord (dropReader_addReader _ k)
      exact congrArg (fun w => m.put l.nodeId (redeem l.nodeId a k.localIsReserveLock)
        { k with
          lockWord := w, globalReadRefCount := 0, holdGlobal := false, globalState := .idle
          localIsReserveLock := .i }) hword

theorem EnteredX.owner {r : Bool} {tid : Tid} {k' : LocalLock} (h : EnteredX r tid k k') :
    k'.lockXOwner = tid := by
  rcases h with ⟨ho, -, rfl⟩ | ⟨-, -, rfl⟩
  · exact ho
  · rfl

theorem EnteredX.token {r : Bool} {tid : Tid} {k' : LocalLock} (h : EnteredX r tid k k') :
    k'.localIsReserveLock = k.localIsReserveLock := by
  rcases h with ⟨-, -, rfl⟩ | ⟨-, -, rfl⟩ <;> rfl

/-- The shared object after a successful `lock_x`, once the token is dealt with: X is inherited,
    taken once more by its owner, or taken with the whole word. -/
def TookX (r : Bool) (l : Location) (mode : Mode) (a a' : UbRwLock) : Prop :=
  (mode = .x ∧ a' = { a with
    reserveLockOwner := lockInvalidOwner, lockOwnerX := makeGlobalOwner l, xRecursive := 1 }) ∨
  (mode ≠ .x ∧ (redeem l.nodeId a mode).lockOwnerX = makeGlobalOwner l ∧ r = true ∧
    a' = { redeem l.nodeId a mode with
      xRecursive := u32 ((redeem l.nodeId a mode).xRecursive + 1) }) ∨
  (mode ≠ .x ∧ (redeem l.nodeId a mode).lockOwnerX ≠ makeGlobalOwner l ∧
    (redeem l.nodeId a mode).lockWord = xLockDecr ∧
    a' = { redeem l.nodeId a mode with
      lockWord := 0, lockOwnerX := makeGlobalOwner l, xRecursive := 1 })

theorem ends_lockX (p : Policy) (hn : l.nodeId.val < ubMaxNodes)
    (hfound : m.registered l.nodeId = true) (hr : Reservable a) :
    Ends (lockX p l) (fun r m' =>
      (r = .success → ∃ k' a', EnteredX p.recursive l.tid k k' ∧
        TookX p.recursive l k.localIsReserveLock a a' ∧
        m' = m.put l.nodeId a' { k' with localIsReserveLock := .i, holdGlobal := true }) ∧
      (r ≠ .success → m' = m.put l.nodeId a k ∨
        ∃ k', EnteredX p.recursive l.tid k k' ∧ k.localIsReserveLock ≠ .x ∧
          m' = m.put l.nodeId (redeem l.nodeId a k.localIsReserveLock)
            (leaveX p.recursive { k' with localIsReserveLock := .i }))) (m.put l.nodeId a k) := by
  rw [lockX, lockExclusive, if_neg (by simpa [verifyParam] using hn)]
  dsimp only [gripX]
  refine ends_lookup hfound ?_
  rw [if_neg (by decide)]
  refine wp_bind (wp_mono (ends_localLockX p.recursive) ?_)
  rintro r m₁ - ⟨hyes, hno⟩
  split
  · rename_i hne
    exact ⟨trivial, fun hs => absurd hs hne, fun _ => .inl (hno hne)⟩
  rename_i hok
  obtain ⟨k', hk', rfl⟩ := hyes (not_not.mp hok)
  refine wp_bind (wp_mono (ends_takeToken (by decide) hn) ?_)
  rw [hk'.token]
  rintro r m₂ - (⟨htok, rfl, rfl⟩ | ⟨htok, rfl, rfl⟩)
  · rw [if_pos rfl]
    refine wp_bind (storeShm ?_)
    refine wp_bind (storeShm ?_)
    refine wp_bind (storeLocal ?_)
    exact ⟨trivial, fun _ => ⟨k', _, hk', .inl ⟨htok, rfl⟩, rfl⟩, fun hne => absurd rfl hne⟩
  rw [if_neg (by decide)]
  refine wp_bind (loadShm ?_)
  split
  · rename_i hown
    split
    · rename_i hrec
      refine wp_bind (storeLocal ?_)
      refine wp_bind (fetchShm ?_)
      exact ⟨trivial, fun _ => ⟨k', _, hk', .inr (.inl ⟨htok, hown, hrec, rfl⟩), rfl⟩,
        fun hne => absurd rfl hne⟩
    · refine wp_bind (wp_mono (ends_localUnlockX hk'.owner) ?_)
      rintro _ _ - ⟨-, rfl⟩
      exact ⟨trivial, by simp, fun _ => .inr ⟨k', hk', htok, rfl⟩⟩
  · rename_i hown
    refine wp_mono (ends_spinWaitX p.recursive (hr.redeem _) hk'.owner) ?_
    rintro r _ - ⟨hyes, hno⟩
    refine ⟨fun hs => ?_, fun hne => .inr ⟨k', hk', htok, hno hne⟩⟩
    obtain ⟨hfull, rfl⟩ := hyes hs
    exact ⟨k', _, hk', .inr (.inr ⟨htok, hown, hfull, rfl⟩), rfl⟩

theorem EnteredSx.owner {r : Bool} {tid : Tid} {k' : LocalLock} (h : EnteredSx r tid k k') :
    k'.lockSxOwner = tid := by
  rcases h with ⟨ho, -, rfl⟩ | ⟨-, -, -, rfl⟩
  · exact ho
  · rfl

theorem EnteredSx.token {r : Bool} {tid : Tid} {k' : LocalLock} (h : EnteredSx r tid k k') :
    k'.localIsReserveLock = k.localIsReserveLock := by
  rcases h with ⟨-, -, rfl⟩ | ⟨-, -, -, rfl⟩ <;> rfl

/-- The shared object after a successful `lock_sx`, once the token is dealt with. -/
def TookSx (r : Bool) (l : Location) (mode : Mode) (a a' : UbRwLock) : Prop :=
  (mode = .sx ∧ a' = { a with
    reserveLockOwner := lockInvalidOwner, lockOwnerSx := makeGlobalOwner l, sxRecursive := 1 }) ∨
  (mode ≠ .sx ∧ (redeem l.nodeId a mode).lockOwnerSx = makeGlobalOwner l ∧ r = true ∧
    a' = { redeem l.nodeId a mode with
      sxRecursive := u32 ((redeem l.nodeId a mode).sxRecursive + 1) }) ∨
  (mode ≠ .sx ∧ (redeem l.nodeId a mode).lockOwnerSx ≠ makeGlobalOwner l ∧
    xLockHalfDecr < (redeem l.nodeId a mode).lockWord ∧
    a' = { redeem l.nodeId a mode with
      lockWord := (redeem l.nodeId a mode).lockWord - xLockHalfDecr
      lockOwnerSx := makeGlobalOwner l, sxRecursive := 1 })

/-- A thread that takes SX once more needs the SX flag of the local word set. -/
theorem ends_lockSx (p : Policy) (hn : l.nodeId.val < ubMaxNodes)
    (hfound : m.registered l.nodeId = true) (hr : Reservable a)
    (hf : p.recursive = true → k.lockSxOwner = l.tid → (k.lockWord 0).flag = true) :
    Ends (lockSx p l) (fun r m' =>
      (r = .success → ∃ k' a', EnteredSx p.recursive l.tid k k' ∧
        TookSx p.recursive l k.localIsReserveLock a a' ∧
        m' = m.put l.nodeId a' { k' with localIsReserveLock := .i, holdGlobal := true }) ∧
      (r ≠ .success → m' = m.put l.nodeId a k ∨
        ∃ k', EnteredSx p.recursive l.tid k k' ∧ k.localIsReserveLock ≠ .sx ∧
          m' = m.put l.nodeId (redeem l.nodeId a k.localIsReserveLock)
            (leaveSx p.recursive { k' with localIsReserveLock := .i }))) (m.put l.nodeId a k) := by
  rw [lockSx, lockExclusive, if_neg (by simpa [verifyParam] using hn)]
  dsimp only [gripSx]
  refine ends_lookup hfound ?_
  rw [if_neg (by decide)]
  refine wp_bind (wp_mono (ends_localLockSx p.recursive) ?_)
  rintro r m₁ - ⟨hyes, hno⟩
  split
  · rename_i hne
    exact ⟨trivial, fun hs => absurd hs hne, fun _ => .inl (hno hne)⟩
  rename_i hok
  obtain ⟨k', hk', rfl⟩ := hyes (not_not.mp hok)
  have hf' : (k'.lockWord 0).flag = true := by
    rcases hk' with ⟨ho, hrec, rfl⟩ | ⟨-, -, -, rfl⟩
    · exact hf hrec ho
    · simp [setSx]
  refine wp_bind (wp_mono (ends_takeToken (by decide) hn) ?_)
  rw [hk'.token]
  rintro r m₂ - (⟨htok, rfl, rfl⟩ | ⟨htok, rfl, rfl⟩)
  · rw [if_pos rfl]
    refine wp_bind (storeShm ?_)
    refine wp_bind (storeShm ?_)
    refine wp_bind (storeLocal ?_)
    exact ⟨trivial, fun _ => ⟨k', _, hk', .inl ⟨htok, rfl⟩, rfl⟩, fun hne => absurd rfl hne⟩
  rw [if_neg (by decide)]
  refine wp_bind (loadShm ?_)
  split
  · rename_i hown
    split
    · rename_i hrec
      refine wp_bind (storeLocal ?_)
      refine wp_bind (fetchShm ?_)
      exact ⟨trivial, fun _ => ⟨k', _, hk', .inr (.inl ⟨htok, hown, hrec, rfl⟩), rfl⟩,
        fun hne => absurd rfl hne⟩
    · refine wp_bind (wp_mono (ends_localUnlockSx hk'.owner hf') ?_)
      rintro _ _ - ⟨-, rfl⟩
      exact ⟨trivial, by simp, fun _ => .inr ⟨k', hk', htok, rfl⟩⟩
  · rename_i hown
    refine wp_mono (ends_spinWaitSx p.recursive (hr.redeem _) hk'.owner hf') ?_
    rintro r _ - ⟨hyes, hno⟩
    refine ⟨fun hs => ?_, fun hne => .inr ⟨k', hk', htok, hno hne⟩⟩
    obtain ⟨hhalf, rfl⟩ := hyes hs
    exact ⟨k', _, hk', .inr (.inr ⟨htok, hown, hhalf, rfl⟩), rfl⟩

/-- The message names the lock, the node knows it, and no other RELEASE is being handled. -/
def Begins (n : NodeId) (msg : Message) (m : Mem) (k : LocalLock) : Prop :=
  msg.addr = ubLockAddr ∧ m.registered n = true ∧ k.remoteReleaseInProgress = false

theorem ends_validateReleaseLockPointer (addr : ℕ) :
    Ends (validateReleaseLockPointer n addr) (fun valid m' => m' = m.put n a k ∧
      (valid = true ↔ addr = ubLockAddr ∧ m.registered n = true)) (m.put n a k) := by
  rw [validateReleaseLockPointer]
  split_ifs with h0 h64
  · exact ⟨trivial, rfl, by simp [h0, ubLockAddr]⟩
  · refine ⟨trivial, rfl, fun h => absurd h (by decide), fun h => ?_⟩
    exact absurd (by rw [h.1]; decide) h64
  · have hreg : Seen Mem.face (registeredAt n) :=
  ⟨fun _ => rfl, fun _ _ => rfl⟩
    refine wp_bind (seq_load hreg ⟨trivial, rfl, ?_⟩)
    have hget : (registeredAt n).get (m.put n a k) = m.registered n := rfl
    rw [hget, Bool.and_eq_true, decide_eq_true_eq, and_comm]

/-- A RELEASE message gives a token back if it finds the local lock free, and drops it otherwise. -/
theorem ends_handleRelease (hn : n.val < ubMaxNodes) {msg : Message} (hd : msg.dest = n) :
    Ends (handleRelease n msg) (fun _ m' => ∃ b,
      (¬ Begins n msg m k ∨ k.localIsReserveLock = .i) ∧
        m' = m.put n a { k with remoteReleaseInProgress := b } ∨
      Begins n msg m k ∧ k.localIsReserveLock ≠ .i ∧ k.lockWord ≠ .zero ∧
        m' = m.put n a { k with localIsReserveLock := .i, remoteReleaseInProgress := b } ∨
      Begins n msg m k ∧ k.localIsReserveLock ≠ .i ∧ k.lockWord = .zero ∧
        m' = m.put n (giveBack n a k.localIsReserveLock)
          { k with localIsReserveLock := .i, remoteReleaseInProgress := b }) (m.put n a k) := by
  refine wp_bind (wp_mono (ends_validateReleaseLockPointer msg.addr) ?_)
  rintro valid _ - ⟨rfl, hvalid⟩
  split_ifs with hv
  · refine ⟨trivial, k.remoteReleaseInProgress, .inl ⟨.inl fun hb => ?_, rfl⟩⟩
    rw [hvalid.mpr ⟨hb.1, hb.2.1⟩] at hv
    cases hv
  have hv := hvalid.mp (by simpa using hv)
  refine wp_bind (wp_bind (casLocal (fun hfree => ⟨trivial, ?_⟩) fun hbusy => ⟨trivial, ?_⟩))
  · have hbegins : Begins n msg m k := ⟨hv.1, hv.2, hfree⟩
    dsimp only
    rw [if_neg (by decide)]
    refine wp_bind (rmwLocal ?_)
    dsimp only
    split
    · rename_i hi
      have hk : { k with localIsReserveLock := .i, remoteReleaseInProgress := true }
          = { k with remoteReleaseInProgress := true } := by
        rw [← hi]
      rw [hk]
      exact storeLocal ⟨false, .inl ⟨.inr hi, rfl⟩⟩
    rename_i hi
    refine wp_bind (wp_bind (loadLocal ⟨trivial, ?_⟩))
    dsimp only
    by_cases hz : k.lockWord = .zero
    · rw [if_neg (by simp [StateWord.isIdle, hz]), hd]
      refine wp_bind (wp_mono (ends_delayUnlock _ hn) ?_)
      rintro _ _ - rfl
      exact storeLocal ⟨false, .inr (.inr ⟨hbegins, hi, hz, rfl⟩)⟩
    · rw [if_pos (by simp [StateWord.isIdle, hz])]
      exact storeLocal ⟨false, .inr (.inl ⟨hbegins, hi, hz, rfl⟩)⟩
  · dsimp only
    rw [if_pos (by decide)]
    exact ⟨trivial, k.remoteReleaseInProgress, .inl ⟨.inl fun hb => hbusy hb.2.2, rfl⟩⟩

end Global

end Alone

end UbsAtomic
