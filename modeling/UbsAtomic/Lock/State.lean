import Mathlib
import UbsAtomic.Conc.Atomic

/-! The memory of one distributed read-write lock: the shared-memory object `ub_rw_lock`, the
    `LocalLock` that every node keeps in its own process, the wait contexts of the threads that
    sleep, and the messages under way between the nodes.

        node 0            node 1                 shared memory
        LocalLock         LocalLock       ──▶    lock_word, owners, bitmap
        wait contexts     wait contexts          wait queue (16 slots)
             └───── GRANT / RELEASE messages ─────┘

    The 64-bit local lock word is kept as the four 16-bit lanes the code addresses; owners are the
    64-bit numbers of the source; thread ids are the 32-bit patterns behind `int32_t`. -/

namespace UbsAtomic

open Conc

/-! ### Constants and small types -/

/-- `ub_lock_mode_t`. -/
inductive Mode where | s | sx | x | i
  deriving DecidableEq, Repr

/-- `ub_lock_result_t`. -/
inductive Result where | success | timeout | conflict | error
  deriving DecidableEq, Repr

/-- `ub_wait_state_t`: the life of one slot of a wait queue. -/
inductive WaitState where | empty | writing | waiting | notified | timeout
  deriving DecidableEq, Repr

/-- `LocalLock::GlobalState`. -/
inductive GlobalState where | idle | pending | held
  deriving DecidableEq, Repr

/-- `uint8_t` node ids; only those below `ubMaxNodes` are accepted. -/
abbrev NodeId := Fin 256

/-- Thread ids, as the 32-bit patterns of `int32_t`. -/
abbrev Tid := Fin 4294967296

instance neZeroNodes : NeZero 256 := ⟨by decide⟩

instance neZeroTids : NeZero 4294967296 := ⟨by decide⟩

instance neZeroLanes : NeZero 4 := ⟨by decide⟩

/-- `ub_location_t`. -/
structure Location where
  tid : Tid
  nodeId : NodeId
  deriving DecidableEq, Repr, Fintype

/-- The two switches of `ub_lock_policy_t`; its timeout is a choice of the surroundings. -/
structure Policy where
  allowDelayRelease : Bool
  recursive : Bool
  deriving DecidableEq, Repr

def ubMaxNodes : ℕ := 16
def ubMaxCapacity : ℕ := 256
def lockSThreshold : ℕ := 100
def spinWaitRounds : ℕ := 30
def xLockDecr : ℤ := 65536
def xLockHalfDecr : ℤ := 32768
def readerCountMask : ℕ := 16383

/-- Wrap-around of `uint32_t`. -/
def u32 (n : ℕ) : ℕ := n % 4294967296

/-- `t - h` on `uint32_t`. -/
def u32Sub (t h : ℕ) : ℕ := u32 (t + 4294967296 - h)

/-- `make_global_owner`. -/
def makeGlobalOwner (l : Location) : ℕ := l.nodeId.val * 4294967296 + l.tid.val

/-- `LOCK_INVALID_OWNER`: node 255, thread 0. -/
def lockInvalidOwner : ℕ := 255 * 4294967296

theorem makeGlobalOwner_injective : Function.Injective makeGlobalOwner := by
  rintro ⟨t, n⟩ ⟨t', n'⟩ h
  have := t.isLt
  have := t'.isLt
  simp only [makeGlobalOwner] at h
  have hn : n.val = n'.val := by omega
  have ht : t.val = t'.val := by omega
  rw [Fin.ext hn, Fin.ext ht]

/-- No node id that the lock accepts is that of `LOCK_INVALID_OWNER`. -/
theorem makeGlobalOwner_ne_invalid {l : Location} (h : l.nodeId.val < ubMaxNodes) :
    makeGlobalOwner l ≠ lockInvalidOwner := by
  have := l.tid.isLt
  simp only [makeGlobalOwner, lockInvalidOwner, ubMaxNodes] at *
  omega

/-! ### The local lock word -/

/-- One 16-bit lane: a 14-bit reader count, the sentinel of an X holder and the lane's top bit. -/
structure Lane where
  count : ℕ
  sentinel : Bool
  flag : Bool
  deriving DecidableEq, Repr

/-- `LocalLockStateWord`: four lanes, the top bit of lane 0 is SX, that of lane 1 is X. -/
abbrev StateWord := Fin 4 → Lane

instance : DecidableEq StateWord := fun a b =>
  decidable_of_iff (a 0 = b 0 ∧ a 1 = b 1 ∧ a 2 = b 2 ∧ a 3 = b 3)
    ⟨fun h => funext fun i => by fin_cases i <;> simp [h], fun h => by simp [h]⟩

def Lane.zero : Lane := ⟨0, false, false⟩

namespace StateWord

/-- The word `0`. -/
def zero : StateWord := fun _ => .zero

/-- `LOCAL_LOCK_X_STATE`: the X flag and the sentinel of every lane. -/
def xState : StateWord := fun i => ⟨0, true, i = 1⟩

def sxFlag (w : StateWord) : Bool := (w 0).flag

def xFlag (w : StateWord) : Bool := (w 1).flag

/-- Whether some lane has its sentinel set. -/
def anySentinel (w : StateWord) : Bool :=
  (w 0).sentinel || (w 1).sentinel || (w 2).sentinel || (w 3).sentinel

/-- `local_lock_state_is_idle`. -/
def isIdle (w : StateWord) : Bool := w = zero

end StateWord

/-- `local_lock_lane_for_tid`. -/
def laneForTid (tid : Tid) : Fin 4 := ⟨tid.val % 4, Nat.mod_lt _ (by decide)⟩

/-! ### Wait queues -/

structure Slot (π : Type) where
  seq : WaitState
  payload : π

/-- The ring of a wait queue; `count` is its `waiting_count`. -/
structure RingQueue (π : Type) where
  head : ℕ
  tail : ℕ
  count : ℕ
  slots : ℕ → Slot π

/-- Payload of `local_waiter_t`. -/
structure LocalWaiter where
  mode : Mode
  tid : Tid
  deriving DecidableEq, Repr

/-- Payload of `ub_waiter_t`. -/
structure UbWaiter where
  mode : Mode
  location : Location
  deriving DecidableEq, Repr

/-! ### The lock objects -/

/-- `ub_rw_lock`. -/
structure UbRwLock where
  lockWord : ℤ
  queue : RingQueue UbWaiter
  lockOwnerX : ℕ
  lockOwnerSx : ℕ
  reserveLockOwner : ℕ
  sxRecursive : ℕ
  xRecursive : ℕ
  isInited : ℤ
  sharedOwnerBitmap : BitVec 32
  nodeRegistry : NodeId → ℕ

/-- `LocalLock`, one per node. -/
structure LocalLock where
  lockWord : StateWord
  queue : RingQueue LocalWaiter
  readCount : ℕ
  lockXOwner : Tid
  lockSxOwner : Tid
  xRecursive : ℕ
  sxRecursive : ℕ
  localIsReserveLock : Mode
  remoteReleaseInProgress : Bool
  holdGlobal : Bool
  globalState : GlobalState
  globalReadRefCount : ℤ

/-- `ub_message_type_t`. -/
inductive MessageType where | grant | release | unknown
  deriving DecidableEq, Repr

/-- A lock message: the two node ids of its header and its `local_msg_body_t`. -/
structure Message where
  src : NodeId
  dest : NodeId
  tid : Tid
  addr : ℕ
  type : MessageType
  mode : Mode
  deriving DecidableEq, Repr

/-- Everything the calls read and write. `waiters n t` is the wait context that thread `t` of node
    `n` has registered, with its `notified` flag; `pending n t` is `some` while that thread sleeps
    on `global_pending_cv_`, with whether it has been signalled. -/
structure Mem where
  shm : UbRwLock
  ll : NodeId → LocalLock
  registered : NodeId → Bool
  waiters : NodeId → Tid → Option Bool
  pending : NodeId → Tid → Option Bool
  net : List Message
  transport : Bool

/-- The address under which every node knows the lock. -/
def ubLockAddr : ℕ := 64

/-! ### Where the variables of the shared object are -/

/-- A memory that has the shared object in it. -/
class HasShm (σ : Type) where
  shm : Place σ UbRwLock

instance : HasShm Mem := ⟨⟨(·.shm), fun v s => { s with shm := v }⟩⟩

@[simp] theorem shm_get (s : Mem) : HasShm.shm.get s = s.shm := rfl

@[simp] theorem shm_set (v : UbRwLock) (s : Mem) : HasShm.shm.set v s = { s with shm := v } := rfl

section Shm

variable {σ α : Type} [HasShm σ]

def shmField (get : UbRwLock → α) (set : α → UbRwLock → UbRwLock) : Place σ α where
  get s := get (HasShm.shm.get s)
  set v s := HasShm.shm.set (set v (HasShm.shm.get s)) s

namespace Shm

def lockWord : Place σ ℤ := shmField (·.lockWord) fun v l => { l with lockWord := v }

def lockOwnerX : Place σ ℕ := shmField (·.lockOwnerX) fun v l => { l with lockOwnerX := v }

def lockOwnerSx : Place σ ℕ := shmField (·.lockOwnerSx) fun v l => { l with lockOwnerSx := v }

def reserveLockOwner : Place σ ℕ :=
  shmField (·.reserveLockOwner) fun v l => { l with reserveLockOwner := v }

def xRecursive : Place σ ℕ := shmField (·.xRecursive) fun v l => { l with xRecursive := v }

def sxRecursive : Place σ ℕ := shmField (·.sxRecursive) fun v l => { l with sxRecursive := v }

def isInited : Place σ ℤ := shmField (·.isInited) fun v l => { l with isInited := v }

def sharedOwnerBitmap : Place σ (BitVec 32) :=
  shmField (·.sharedOwnerBitmap) fun v l => { l with sharedOwnerBitmap := v }

def nodeRegistry (n : NodeId) : Place σ ℕ :=
  shmField (·.nodeRegistry n) fun v l => { l with nodeRegistry := Function.update l.nodeRegistry n v }

end Shm

end Shm

/-! ### Freshly created -/

def RingQueue.init {π : Type} (reset : π) : RingQueue π := ⟨0, 0, 0, fun _ => ⟨.empty, reset⟩⟩

def LocalWaiter.reset : LocalWaiter := ⟨.i, 0⟩

def UbWaiter.reset : UbWaiter := ⟨.i, ⟨0, 255⟩⟩

/-- `LocalLock::init_`. -/
def LocalLock.init : LocalLock where
  lockWord := .zero
  queue := .init .reset
  readCount := 0
  lockXOwner := 0
  lockSxOwner := 0
  xRecursive := 0
  sxRecursive := 0
  localIsReserveLock := .i
  remoteReleaseInProgress := false
  holdGlobal := false
  globalState := .idle
  globalReadRefCount := 0

/-- The shared object after `lock_create` by one node. -/
def UbRwLock.init : UbRwLock where
  lockWord := xLockDecr
  queue := .init .reset
  lockOwnerX := lockInvalidOwner
  lockOwnerSx := lockInvalidOwner
  reserveLockOwner := lockInvalidOwner
  sxRecursive := 0
  xRecursive := 0
  isInited := 16
  sharedOwnerBitmap := 0
  nodeRegistry := fun n => if n.val < ubMaxNodes then ubLockAddr else 0

/-- A lock that every node has created and nobody has used. -/
def Mem.init : Mem where
  shm := .init
  ll := fun _ => .init
  registered := fun n => n.val < ubMaxNodes
  waiters := fun _ _ => none
  pending := fun _ _ => none
  net := []
  transport := true

end UbsAtomic
