import UbsAtomic.Conc.Sequential
import UbsAtomic.Lock.Client

/-! The 64-bit word of the local lock (`local_lock.h`, `lock_optimization.cpp`), bit by bit.

    Four 16-bit lanes share the word. S and SX change one lane with a 16-bit operation, X changes
    the whole word, and the release of X is a blind store.

        lane 3           lane 2           lane 1           lane 0
        _ x cccc…        _ x cccc…        X x cccc…        S x cccc…
        │ │ └ readers of the threads with tid mod 4 = lane (14 bits)
        │ └ sentinel of an X holder, in every lane
        └ SX flag in lane 0, X flag in lane 1

    The word refines an abstract state that says how often each thread holds S, SX and X: every
    atomic step leaves the abstract state alone or is one of its six legal changes. -/

namespace UbsAtomic

open Conc Conc.Prog

namespace Packed

def readerCountMask : BitVec 16 := 0x3FFF
def readerSentinel : BitVec 16 := 0x4000
def sxFlag : BitVec 64 := 0x8000
def xFlag : BitVec 64 := 0x8000 <<< 16

/-- `make_local_lock_lane_mask`. -/
def makeLaneMask (laneMask : BitVec 64) : BitVec 64 :=
  (List.range 4).foldl (fun mask i => mask ||| laneMask <<< (i * 16)) 0

def readerSentinelMask : BitVec 64 := makeLaneMask (readerSentinel.setWidth 64)

/-- `LOCAL_LOCK_X_STATE`. -/
def xState : BitVec 64 := xFlag ||| readerSentinelMask

/-- `local_lock_lane_value`. -/
def laneValue (state : BitVec 64) (lane : Fin 4) : BitVec 16 :=
  ((state >>> (lane.val * 16)) &&& 0xFFFF#64).setWidth 16

/-- A 16-bit write through `lane_ptr`: the other three lanes stay as they are. -/
def setLane (lane : Fin 4) (v : BitVec 16) (state : BitVec 64) : BitVec 64 :=
  (state &&& ~~~(0xFFFF#64 <<< (lane.val * 16))) ||| (v.setWidth 64 <<< (lane.val * 16))

/-- `LocalLockStateWord`, as a whole. -/
def wordAt : Place (BitVec 64) (BitVec 64) := ⟨id, fun v _ => v⟩

/-- `LocalLockStateWord`, through `lane_ptr`. -/
def laneAt (lane : Fin 4) : Place (BitVec 64) (BitVec 16) := ⟨fun w => laneValue w lane, setLane lane⟩

/-! ### The operations -/

abbrev Call := Prog (BitVec 64) Unit

/-- `local_lock_try_acquire_s`. -/
def tryAcquireS (tid : Tid) : Call Bool := do
  let state ← load wordAt
  if state &&& xFlag ≠ 0 then
    return false
  let value := laneValue state (laneForTid tid)
  if value &&& readerSentinel ≠ 0 then
    return false
  let count := value &&& readerCountMask
  if count = readerCountMask then
    return false
  let taken ← casWeak (laneAt (laneForTid tid)) value ((value &&& ~~~readerCountMask) ||| (count + 1))
  return taken.1

/-- One round of `local_lock_try_release_s`; a failed CAS hands over the value it saw. -/
def releaseSRound (tid : Tid) (value : BitVec 16) : Call (BitVec 16 ⊕ Bool) := do
  if value &&& readerSentinel ≠ 0 then
    return .inr false
  let count := value &&& readerCountMask
  if count = 0 then
    return .inr false
  let given ← cas (laneAt (laneForTid tid)) value ((value &&& ~~~readerCountMask) ||| (count - 1))
  if given.1 then
    let _ ← load wordAt
    return .inr true
  return .inl given.2

/-- `local_lock_try_release_s`. -/
def tryReleaseS (tid : Tid) : Call Bool := do
  let state ← load wordAt
  loop (releaseSRound tid) (laneValue state (laneForTid tid))

/-- `local_lock_try_acquire_x`. -/
def tryAcquireX : Call Bool := do
  let state ← load wordAt
  if state ≠ 0 then
    return false
  let taken ← casWeak wordAt state xState
  return taken.1

/-- `local_lock_try_acquire_sx`. -/
def tryAcquireSx : Call Bool := do
  let state ← load wordAt
  if state &&& (sxFlag ||| xFlag ||| readerSentinelMask) ≠ 0 then
    return false
  let value := laneValue state 0
  if value &&& (sxFlag.setWidth 16 ||| readerSentinel) ≠ 0 then
    return false
  let taken ← casWeak (laneAt 0) value (value ||| sxFlag.setWidth 16)
  return taken.1

/-- `local_lock_try_release_sx`. -/
def tryReleaseSx : Call Bool := do
  let old ← fetch (laneAt 0) fun v => v &&& ~~~(sxFlag.setWidth 16)
  if old &&& sxFlag.setWidth 16 = 0 then
    return false
  let _ ← load wordAt
  return true

/-- The store at the end of `LocalLock::unlock_x`. -/
def releaseX : Call Bool := do
  store wordAt 0
  return true

/-! ### Lanes -/

theorem getLsbD_ffff (k : ℕ) : (0xFFFF#64).getLsbD k = decide (k < 16) := by
  rw [show (0xFFFF#64) = (BitVec.allOnes 16).setWidth 64 by decide, BitVec.getLsbD_setWidth,
    BitVec.getLsbD_allOnes]
  by_cases h : k < 16
  · simp [h]
    omega
  · simp [h]

theorem getLsbD_laneValue (w : BitVec 64) (i : Fin 4) {k : ℕ} (hk : k < 16) :
    (laneValue w i).getLsbD k = w.getLsbD (i.val * 16 + k) := by
  simp only [laneValue, BitVec.getLsbD_setWidth, BitVec.getLsbD_and, BitVec.getLsbD_ushiftRight,
    getLsbD_ffff]
  simp [hk]

theorem getLsbD_setLane (w : BitVec 64) (i : Fin 4) (v : BitVec 16) {k : ℕ} (hk : k < 64) :
    (setLane i v w).getLsbD k
      = if k / 16 = i.val then v.getLsbD (k - i.val * 16) else w.getLsbD k := by
  simp only [setLane, BitVec.getLsbD_or, BitVec.getLsbD_and, BitVec.getLsbD_not,
    BitVec.getLsbD_shiftLeft, BitVec.getLsbD_setWidth, getLsbD_ffff, hk, decide_true, Bool.true_and]
  -- below the lane, in it, above it
  by_cases hlt : k < i.val * 16
  · have hdiv : k / 16 ≠ i.val := by omega
    simp [hlt, hdiv]
  by_cases hge : k - i.val * 16 < 16
  · have hdiv : k / 16 = i.val := by omega
    have h64 : k - i.val * 16 < 64 := by omega
    simp [hlt, hdiv, hge, h64]
  · have hdiv : k / 16 ≠ i.val := by omega
    have hv : v.getLsbD (k - i.val * 16) = false := BitVec.getLsbD_of_ge _ _ (by omega)
    simp [hlt, hdiv, hge, hv]

theorem laneValue_setLane (w : BitVec 64) (i j : Fin 4) (v : BitVec 16) :
    laneValue (setLane i v w) j = if j = i then v else laneValue w j := by
  refine BitVec.eq_of_getLsbD_eq fun k hk => ?_
  rw [getLsbD_laneValue _ _ hk, getLsbD_setLane _ _ _ (by omega)]
  have hdiv : (j.val * 16 + k) / 16 = j.val := by omega
  by_cases hji : j = i
  · subst hji
    simp [hdiv]
  · rw [hdiv, if_neg (fun h => hji (Fin.ext h)), if_neg hji, getLsbD_laneValue _ _ hk]

/-- A word is its four lanes. -/
theorem eq_of_laneValue {w w' : BitVec 64} (h : ∀ i, laneValue w i = laneValue w' i) : w = w' := by
  refine BitVec.eq_of_getLsbD_eq fun k hk => ?_
  have hk' := congrArg (fun v => v.getLsbD (k % 16)) (h ⟨k / 16, by omega⟩)
  simp only [getLsbD_laneValue _ _ (Nat.mod_lt k (by decide : 16 > 0))] at hk'
  rwa [show k / 16 * 16 + k % 16 = k by omega] at hk'

/-- What a lane says. -/
def readLane (v : BitVec 16) : Lane := ⟨(v &&& readerCountMask).toNat, v.getLsbD 14, v.getLsbD 15⟩

/-- What the word says. -/
def decode (w : BitVec 64) : StateWord := fun i => readLane (laneValue w i)

theorem getLsbD_readerCountMask {k : ℕ} (hk : k < 16) :
    readerCountMask.getLsbD k = decide (k < 14) := by
  interval_cases k <;> decide

theorem readLane_injective : Function.Injective readLane := by
  intro v v' h
  obtain ⟨hc, hs, hf⟩ := Lane.mk.inj h
  refine BitVec.eq_of_getLsbD_eq fun k hk => ?_
  have hbit := congrArg (fun c => c.getLsbD k) (BitVec.eq_of_toNat_eq hc)
  simp only [BitVec.getLsbD_and, getLsbD_readerCountMask hk] at hbit
  by_cases h14 : k < 14
  · simpa [h14] using hbit
  · obtain rfl | rfl : k = 14 ∨ k = 15 := by omega
    · exact hs
    · exact hf

theorem decode_injective : Function.Injective decode := fun _ _ h =>
  eq_of_laneValue fun i => readLane_injective (congrFun h i)

theorem decode_setLane (w : BitVec 64) (i : Fin 4) (v : BitVec 16) :
    decode (setLane i v w) = Function.update (decode w) i (readLane v) := by
  funext j
  by_cases hji : j = i
  · subst hji
    simp [decode, laneValue_setLane]
  · simp [decode, laneValue_setLane, hji]

theorem decode_zero : decode 0 = StateWord.zero := by decide

/-! ### Lane arithmetic -/

/-- Testing one bit. -/
theorem and_bit_ne {v b : BitVec 16} {k : ℕ} (hb : b = BitVec.twoPow 16 k) (h0 : b ≠ 0) :
    v &&& b ≠ 0 ↔ v.getLsbD k = true := by
  have hand : v &&& b = if v.getLsbD k then b else 0 := by
    rw [hb]
    exact BitVec.and_twoPow v k
  rw [hand]
  cases v.getLsbD k
  · simp
  · simpa using h0

theorem sentinel_iff (v : BitVec 16) : v &&& readerSentinel ≠ 0 ↔ (readLane v).sentinel = true :=
  and_bit_ne (by decide) (by decide)

theorem flag_iff (v : BitVec 16) : v &&& sxFlag.setWidth 16 ≠ 0 ↔ (readLane v).flag = true :=
  and_bit_ne (by decide) (by decide)

/-- A number of 14 bits has no other bits. -/
theorem getLsbD_count {c : BitVec 16} (hc : c.toNat ≤ 16383) {k : ℕ} (hk : 14 ≤ k) :
    c.getLsbD k = false := by
  refine Nat.testBit_lt_two_pow (lt_of_le_of_lt hc ?_)
  calc 16383 < 2 ^ 14 := by decide
    _ ≤ 2 ^ k := Nat.pow_le_pow_right (by decide) hk

/-- A new count goes in and nothing else changes: no carry leaves the 14 bits. -/
theorem readLane_setCount (v : BitVec 16) {c : BitVec 16} (hc : c.toNat ≤ 16383) :
    readLane ((v &&& ~~~readerCountMask) ||| c) = { readLane v with count := c.toNat } := by
  have hcount : ((v &&& ~~~readerCountMask) ||| c) &&& readerCountMask = c := by
    refine BitVec.eq_of_getLsbD_eq fun k hk => ?_
    simp only [BitVec.getLsbD_and, BitVec.getLsbD_or, BitVec.getLsbD_not, getLsbD_readerCountMask hk]
    by_cases h14 : k < 14
    · simp [h14]
    · simp [h14, getLsbD_count hc (not_lt.mp h14)]
  have hbit : ∀ k, 14 ≤ k → k < 16 →
      ((v &&& ~~~readerCountMask) ||| c).getLsbD k = v.getLsbD k := by
    intro k h14 h16
    simp only [BitVec.getLsbD_and, BitVec.getLsbD_or, BitVec.getLsbD_not,
      getLsbD_readerCountMask h16, getLsbD_count hc h14]
    simp [h16, not_lt.mpr h14]
  simp only [readLane, hcount, hbit 14 (by decide) (by decide), hbit 15 (by decide) (by decide)]

theorem readLane_count_le (v : BitVec 16) : (readLane v).count ≤ 16383 := by
  have h : (v &&& readerCountMask).toNat = v.toNat &&& 16383 := by
    rw [BitVec.toNat_and]
    rfl
  rw [readLane, h]
  exact Nat.and_le_right

theorem readLane_succ {v : BitVec 16} (hc : v &&& readerCountMask ≠ readerCountMask) :
    readLane ((v &&& ~~~readerCountMask) ||| ((v &&& readerCountMask) + 1))
      = { readLane v with count := (readLane v).count + 1 } := by
  have hle := readLane_count_le v
  have hne : (readLane v).count ≠ 16383 := fun h => hc (BitVec.eq_of_toNat_eq h)
  have hadd : ((v &&& readerCountMask) + 1).toNat = (readLane v).count + 1 := by
    rw [BitVec.toNat_add]
    refine Nat.mod_eq_of_lt ?_
    change (readLane v).count + 1 < 65536
    omega
  rw [readLane_setCount v (by omega), hadd]

theorem readLane_pred {v : BitVec 16} (hc : v &&& readerCountMask ≠ 0) :
    readLane ((v &&& ~~~readerCountMask) ||| ((v &&& readerCountMask) - 1))
      = { readLane v with count := (readLane v).count - 1 } := by
  have hle := readLane_count_le v
  have hne : (readLane v).count ≠ 0 := fun h => hc (BitVec.eq_of_toNat_eq h)
  have hsub : ((v &&& readerCountMask) - 1).toNat = (readLane v).count - 1 := by
    rw [BitVec.toNat_sub_of_le]
    · rfl
    · rw [BitVec.le_def]
      exact Nat.one_le_iff_ne_zero.mpr hne
  rw [readLane_setCount v (by omega), hsub]

theorem getLsbD_sxFlag {k : ℕ} (hk : k < 16) :
    (sxFlag.setWidth 16).getLsbD k = decide (k = 15) := by
  interval_cases k <;> decide

/-- The count only depends on the low 14 bits. -/
theorem readLane_count_congr {v w : BitVec 16} (h : ∀ k < 14, w.getLsbD k = v.getLsbD k) :
    (readLane w).count = (readLane v).count := by
  refine congrArg BitVec.toNat (BitVec.eq_of_getLsbD_eq fun k hk => ?_)
  simp only [BitVec.getLsbD_and, getLsbD_readerCountMask hk]
  by_cases h14 : k < 14
  · simp [h14, h k h14]
  · simp [h14]

theorem readLane_setFlag (v : BitVec 16) :
    readLane (v ||| sxFlag.setWidth 16) = { readLane v with flag := true } := by
  have hbit : ∀ k < 16, (v ||| sxFlag.setWidth 16).getLsbD k = (v.getLsbD k || decide (k = 15)) := by
    intro k hk
    rw [BitVec.getLsbD_or, getLsbD_sxFlag hk]
  have hcount := readLane_count_congr (v := v) (w := v ||| sxFlag.setWidth 16) fun k hk => by
    simp [hbit k (by omega), show k ≠ 15 by omega]
  simp only [readLane] at hcount ⊢
  rw [hcount, hbit 14 (by decide), hbit 15 (by decide)]
  simp

theorem readLane_clearFlag (v : BitVec 16) :
    readLane (v &&& ~~~(sxFlag.setWidth 16)) = { readLane v with flag := false } := by
  have hbit : ∀ k < 16,
      (v &&& ~~~(sxFlag.setWidth 16)).getLsbD k = (v.getLsbD k && decide (k ≠ 15)) := by
    intro k hk
    rw [BitVec.getLsbD_and, BitVec.getLsbD_not, getLsbD_sxFlag hk]
    simp [hk]
  have hcount := readLane_count_congr (v := v) (w := v &&& ~~~(sxFlag.setWidth 16)) fun k hk => by
    simp [hbit k (by omega), show k ≠ 15 by omega]
  simp only [readLane] at hcount ⊢
  rw [hcount, hbit 14 (by decide), hbit 15 (by decide)]
  simp

/-! ### The abstract state -/

/-- What a thread may do to its holds. -/
inductive Op where | acquireS | acquireSx | acquireX | releaseS | releaseSx | releaseX
  deriving DecidableEq

/-- What a successful operation does to the holds of its thread. -/
def Op.apply : Op → Holds → Holds
  | .acquireS, h => { h with s := h.s + 1 }
  | .acquireSx, h => { h with sx := h.sx + 1 }
  | .acquireX, h => { h with x := h.x + 1 }
  | .releaseS, h => { h with s := h.s - 1 }
  | .releaseSx, h => { h with sx := h.sx - 1 }
  | .releaseX, h => { h with x := h.x - 1 }

/-- Only what is held may be released. -/
def Op.owned : Op → Holds → Bool
  | .releaseS, h => h.s > 0
  | .releaseSx, h => h.sx > 0
  | .releaseX, h => h.x > 0
  | _, _ => true

def Op.isRelease : Op → Bool
  | .releaseS | .releaseSx | .releaseX => true
  | _ => false

/-- When an operation may succeed: S beside S and SX, SX beside S, X alone. -/
def Op.Compatible (a : Tid → Holds) : Op → Prop
  | .acquireS => ∀ u, (a u).x = 0
  | .acquireSx => ∀ u, (a u).sx = 0 ∧ (a u).x = 0
  | .acquireX => ∀ u, a u = .none
  | _ => True

/-- A legal change of the abstract state by thread `t`. -/
inductive Step (a : Tid → Holds) (t : Tid) : (Tid → Holds) → Prop
  | op (o : Op) (hc : o.Compatible a) (ho : o.owned (a t) = true) :
      Step a t (Function.update a t (o.apply (a t)))

/-- A sum over the threads. -/
def tally {T : Type} [Fintype T] (f : T → Holds → ℤ) (a : T → Holds) : ℤ := ∑ t, f t (a t)

/-- S holds of the threads that use lane `i`. -/
def readers (i : Fin 4) : (Tid → Holds) → ℤ := tally fun t h => if laneForTid t = i then h.s else 0

def sxHolders : (Tid → Holds) → ℤ := tally fun _ h => h.sx

def xHolders : (Tid → Holds) → ℤ := tally fun _ h => h.x

/-- The word says exactly what is held. -/
structure Decodes (w : BitVec 64) (a : Tid → Holds) : Prop where
  count : ∀ i, ((decode w i).count : ℤ) = readers i a
  sentinel : ∀ i, (decode w i).sentinel = decide (0 < xHolders a)
  flag : ∀ i, (decode w i).flag
    = decide (i = 0 ∧ 0 < sxHolders a ∨ i = 1 ∧ 0 < xHolders a)

/-- X is alone and there is at most one SX. -/
structure Excludes (a : Tid → Holds) : Prop where
  x : 0 < xHolders a → xHolders a = 1 ∧ sxHolders a = 0 ∧ ∀ i, readers i a = 0
  sx : sxHolders a ≤ 1

section Sums

variable {T : Type} [Fintype T] {f : T → Holds → ℤ} {b : T → Holds}

theorem tally_update [DecidableEq T] (u : T) (h : Holds) :
    tally f (Function.update b u h) = tally f b + (f u h - f u (b u)) := by
  have hsum := sum_change (f := fun v => f v (b v)) (g := fun v => f v (Function.update b u h v)) u
    fun v hv => by simp [hv]
  simpa [tally] using hsum

theorem le_tally (hf : ∀ u h, 0 ≤ f u h) (u : T) : f u (b u) ≤ tally f b :=
  le_sum_of_nonneg (f := fun v => f v (b v)) (fun v => hf v (b v)) u

theorem tally_nonneg (hf : ∀ u h, 0 ≤ f u h) : 0 ≤ tally f b :=
  Finset.sum_nonneg fun u _ => hf u (b u)

variable {a : Tid → Holds} {t : Tid}

theorem nonneg_ite (u : Tid) (i : Fin 4) (h : Holds) :
    (0 : ℤ) ≤ if laneForTid u = i then (h.s : ℤ) else 0 := by
  split <;> simp

theorem sxHolders_nonneg : 0 ≤ sxHolders a := by
  rw [sxHolders]
  exact tally_nonneg fun _ _ => Int.natCast_nonneg _

theorem xHolders_nonneg : 0 ≤ xHolders a := by
  rw [xHolders]
  exact tally_nonneg fun _ _ => Int.natCast_nonneg _

theorem le_readers (t : Tid) : ((a t).s : ℤ) ≤ readers (laneForTid t) a := by
  have h := le_tally (f := fun u h => if laneForTid u = laneForTid t then (h.s : ℤ) else 0) (b := a)
    (fun u h => nonneg_ite u _ h) t
  rwa [if_pos rfl] at h

theorem le_sxHolders (t : Tid) : ((a t).sx : ℤ) ≤ sxHolders a := by
  rw [sxHolders]
  exact le_tally (f := fun _ h => (h.sx : ℤ)) (fun _ _ => Int.natCast_nonneg _) t

theorem le_xHolders (t : Tid) : ((a t).x : ℤ) ≤ xHolders a := by
  rw [xHolders]
  exact le_tally (f := fun _ h => (h.x : ℤ)) (fun _ _ => Int.natCast_nonneg _) t

theorem readers_update (i : Fin 4) (h : Holds) :
    readers i (Function.update a t h)
      = readers i a + if laneForTid t = i then (h.s : ℤ) - (a t).s else 0 := by
  rw [readers, tally_update]
  split <;> simp

theorem sxHolders_update (h : Holds) :
    sxHolders (Function.update a t h) = sxHolders a + ((h.sx : ℤ) - (a t).sx) := by
  rw [sxHolders, tally_update]

theorem xHolders_update (h : Holds) :
    xHolders (Function.update a t h) = xHolders a + ((h.x : ℤ) - (a t).x) := by
  rw [xHolders, tally_update]

end Sums

-- the sums range over all thread ids: nothing below should look inside
attribute [irreducible] readers sxHolders xHolders

/-- The word and the holds belong together. -/
structure Inv (w : BitVec 64) (a : Tid → Holds) : Prop extends Decodes w a, Excludes a

section Moves

variable {w w' : BitVec 64} {a : Tid → Holds} {t : Tid}

/-- A lane without its sentinel: nobody has X. -/
theorem Inv.no_x (h : Inv w a) {i : Fin 4} (hs : (decode w i).sentinel = false) :
    xHolders a = 0 := by
  have hx := h.sentinel i
  rw [hs, eq_comm, decide_eq_false_iff_not] at hx
  have := xHolders_nonneg (a := a)
  omega

/-- As long as nobody has X, S changes the count of one lane. -/
theorem Inv.setReaders (h : Inv w a) (hx : xHolders a = 0) {g : Holds} {c : ℕ}
    (hc : (c : ℤ) = (decode w (laneForTid t)).count + (g.s - (a t).s))
    (hsx : g.sx = (a t).sx) (hgx : g.x = (a t).x)
    (hw : decode w' = Function.update (decode w) (laneForTid t)
      { decode w (laneForTid t) with count := c }) :
    Inv w' (Function.update a t g) := by
  have hsx' : sxHolders (Function.update a t g) = sxHolders a := by simp [sxHolders_update, hsx]
  have hx' : xHolders (Function.update a t g) = xHolders a := by simp [xHolders_update, hgx]
  refine ⟨⟨fun i => ?_, fun i => ?_, fun i => ?_⟩, ⟨?_, hsx'.le.trans h.sx⟩⟩
  · rw [hw, readers_update]
    by_cases hi : i = laneForTid t
    · subst hi
      simp [hc, h.count]
    · simp [hi, Ne.symm hi, h.count]
  · rw [hw, hx', ← h.sentinel i]
    by_cases hi : i = laneForTid t
    · subst hi
      simp
    · simp [hi]
  · rw [hw, hx', hsx', ← h.flag i]
    by_cases hi : i = laneForTid t
    · subst hi
      simp
    · simp [hi]
  · rw [hx', hx]
    simp

/-- As long as nobody has X, SX changes the flag of lane 0. -/
theorem Inv.setSx (h : Inv w a) (hx : xHolders a = 0) {g : Holds} {b : Bool}
    (hb : b = decide (0 < sxHolders a + ((g.sx : ℤ) - (a t).sx)))
    (hle : sxHolders a + ((g.sx : ℤ) - (a t).sx) ≤ 1) (hs : g.s = (a t).s) (hgx : g.x = (a t).x)
    (hw : decode w' = Function.update (decode w) 0 { decode w 0 with flag := b }) :
    Inv w' (Function.update a t g) := by
  have hs' : ∀ i, readers i (Function.update a t g) = readers i a := by
    intro i
    simp [readers_update, hs]
  have hx' : xHolders (Function.update a t g) = xHolders a := by simp [xHolders_update, hgx]
  have hsx' := sxHolders_update (a := a) (t := t) g
  refine ⟨⟨fun i => ?_, fun i => ?_, fun i => ?_⟩, ⟨?_, hsx'.le.trans hle⟩⟩
  · rw [hw, hs', ← h.count i]
    by_cases hi : i = 0
    · subst hi
      simp
    · simp [hi]
  · rw [hw, hx', ← h.sentinel i]
    by_cases hi : i = 0
    · subst hi
      simp
    · simp [hi]
  · rw [hw, hx', hsx', hx]
    by_cases hi : i = 0
    · subst hi
      simp [hb]
    · simp [hi, h.flag, hx]
  · rw [hx', hx]
    simp

/-- The word without readers and SX, with or without X. -/
theorem decode_alone : ∀ (b : Bool) (i : Fin 4),
    decode (if b then xState else 0) i = ⟨0, b, decide (i = 1) && b⟩ := by
  decide

/-- X comes and goes alone. -/
theorem Inv.setX (hs : ∀ i, readers i a = 0) (hsx : sxHolders a = 0) {g : Holds} (b : Bool)
    (hxa : xHolders a + ((g.x : ℤ) - (a t).x) = if b then 1 else 0) (hgs : g.s = (a t).s)
    (hgsx : g.sx = (a t).sx) :
    Inv (if b then xState else 0) (Function.update a t g) := by
  have hs' : ∀ i, readers i (Function.update a t g) = 0 := by
    intro i
    simp [readers_update, hgs, hs]
  have hsx' : sxHolders (Function.update a t g) = 0 := by simp [sxHolders_update, hgsx, hsx]
  have hx' : xHolders (Function.update a t g) = if b then 1 else 0 := (xHolders_update g).trans hxa
  refine ⟨⟨fun i => ?_, fun i => ?_, fun i => ?_⟩, ⟨fun hpos => ?_, by simp [hsx']⟩⟩
  · rw [decode_alone, hs', Nat.cast_zero]
  · rw [decode_alone, hx']
    cases b <;> rfl
  · rw [decode_alone, hx', hsx']
    cases b <;> simp
  · refine ⟨?_, hsx', hs'⟩
    rw [hx'] at hpos ⊢
    cases b
    · exact absurd hpos (by decide)
    · rfl

theorem Inv.of_s (h : Inv w a) (ht : 0 < (a t).s) :
    xHolders a = 0 ∧ (decode w (laneForTid t)).sentinel = false ∧
      0 < (decode w (laneForTid t)).count := by
  have hle := le_readers (a := a) t
  have hcount := h.count (laneForTid t)
  have hx : xHolders a = 0 := by
    by_contra hne
    have hpos : 0 < xHolders a := lt_of_le_of_ne xHolders_nonneg (Ne.symm hne)
    have := (h.x hpos).2.2 (laneForTid t)
    omega
  refine ⟨hx, ?_, by omega⟩
  rw [h.sentinel, hx]
  rfl

theorem Inv.of_sx (h : Inv w a) (ht : 0 < (a t).sx) :
    xHolders a = 0 ∧ sxHolders a = 1 ∧ (decode w 0).flag = true := by
  have hle := le_sxHolders (a := a) t
  have hone := h.sx
  have hx : xHolders a = 0 := by
    by_contra hne
    have hpos : 0 < xHolders a := lt_of_le_of_ne xHolders_nonneg (Ne.symm hne)
    have := (h.x hpos).2.1
    omega
  refine ⟨hx, by omega, ?_⟩
  rw [h.flag]
  exact decide_eq_true (.inl ⟨rfl, by omega⟩)

theorem Inv.of_x (h : Inv w a) (ht : 0 < (a t).x) :
    xHolders a = 1 ∧ sxHolders a = 0 ∧ ∀ i, readers i a = 0 :=
  h.x (lt_of_lt_of_le (by exact_mod_cast ht) (le_xHolders t))

/-- Nobody holds anything exactly when the word is `0`. -/
theorem Inv.idle_iff (h : Inv w a) : w = 0 ↔ xHolders a = 0 ∧ sxHolders a = 0 ∧ ∀ i, readers i a = 0 := by
  constructor
  · rintro rfl
    have hx : xHolders a = 0 := h.no_x (i := 0) (by decide)
    have hf := h.flag 0
    refine ⟨hx, ?_, fun i => ?_⟩
    · have hnot : ¬ 0 < sxHolders a := by
        intro hpos
        rw [decide_eq_true (.inl ⟨rfl, hpos⟩)] at hf
        exact absurd hf (by decide)
      exact le_antisymm (not_lt.mp hnot) sxHolders_nonneg
    · rw [← h.count i, decode_zero]
      rfl
  · rintro ⟨hx, hsx, hs⟩
    refine decode_injective ?_
    rw [decode_zero]
    funext i
    have hc := h.count i
    have hst := h.sentinel i
    have hfl := h.flag i
    rw [hs i] at hc
    simp only [hx, hsx, lt_self_iff_false, decide_false, and_false, or_self] at hst hfl
    cases hd : decode w i
    rw [hd] at hc hst hfl
    simp only [StateWord.zero, Lane.zero, Lane.mk.injEq]
    exact ⟨by exact_mod_cast hc, hst, hfl⟩

end Moves

/-! ### The threads -/

/-- Threads with a non-zero id, releasing only what they hold. -/
def client : Client Tid (BitVec 64) Unit Op Bool Holds where
  code
    | t, .acquireS => tryAcquireS t
    | _, .acquireSx => tryAcquireSx
    | _, .acquireX => tryAcquireX
    | t, .releaseS => tryReleaseS t
    | _, .releaseSx => tryReleaseSx
    | _, .releaseX => releaseX
  allowed := fun t h o => t ≠ 0 && o.owned h
  start := fun h _ => h
  finish := fun h o r => if r then o.apply h else h

abbrev WordConfig := Config Tid (BitVec 64) Unit Op Bool Holds

def WordConfig.init : WordConfig := ⟨0, fun _ => .none, fun _ => none⟩

def outline : Outline Tid (BitVec 64) Unit Holds :=
  ⟨Inv, fun _ _ => True, fun _ _ _ _ => True, fun _ _ _ => True⟩

/-- A step leaves the holds of its thread alone or is one of the six changes. -/
def Changes (g g' : Holds) : Prop := g' = g ∨ ∃ o : Op, o.owned g = true ∧ g' = o.apply g

def spec : Spec Tid (BitVec 64) Unit Op Bool Holds Holds where
  toOutline := outline
  rest := fun _ h g => g = h
  moves := fun _ _ => Changes
  good := fun _ _ o r => o.isRelease = true → r = true

section Steps

variable {t : Tid} {h : Holds}

theorem wp_tryAcquireS :
    wp outline t Changes (tryAcquireS t) (fun r g => g = client.finish h .acquireS r) h := by
  refine wp_bind (wp_learn trivial trivial (.inl rfl) fun s γ _ => ⟨trivial, ?_⟩)
  split
  · exact ⟨trivial, rfl⟩
  dsimp only
  generalize laneValue (wordAt.get s) (laneForTid t) = value
  split
  · exact ⟨trivial, rfl⟩
  rename_i hs
  split
  · exact ⟨trivial, rfl⟩
  rename_i hc
  refine wp_bind (wp_casWeak trivial fun w γ hpre => ⟨trivial, fun hw => ?_, ?_⟩)
  · -- the lane is as it was read, so there is no sentinel in it
    have hlane : decode w (laneForTid t) = readLane value := congrArg readLane hw
    have hsent : (decode w (laneForTid t)).sentinel = false := by
      rw [hlane, Bool.eq_false_iff]
      exact fun h' => hs ((sentinel_iff value).mpr h')
    refine ⟨Op.acquireS.apply h, .inr ⟨.acquireS, rfl, rfl⟩, ?_, trivial, trivial, rfl⟩
    refine hpre.inv.setReaders (hpre.inv.no_x hsent) (c := (decode w (laneForTid t)).count + 1) ?_
      ?_ ?_ ?_
    · rw [hpre.own]
      simp [Op.apply]
    · rw [hpre.own]
      rfl
    · rw [hpre.own]
      rfl
    · rw [hlane, ← readLane_succ hc]
      exact decode_setLane w _ _
  · exact ⟨h, .inl rfl, by rw [hpre.update]; exact hpre.inv, trivial, trivial, rfl⟩

/-- A lane read while the thread holds S: no sentinel, and its own hold is in the count. -/
def HoldsReader (value : BitVec 16) : Prop :=
  value &&& readerSentinel = 0 ∧ value &&& readerCountMask ≠ 0

theorem holdsReader {w : BitVec 64} {a : Tid → Holds} (hi : Inv w a) (ht : 0 < (a t).s) :
    HoldsReader (laneValue w (laneForTid t)) := by
  obtain ⟨-, hsent, hcount⟩ := hi.of_s ht
  refine ⟨?_, fun h0 => ?_⟩
  · by_contra hne
    exact absurd ((sentinel_iff _).mp hne) (by rw [Bool.not_eq_true]; exact hsent)
  · have hzero : (decode w (laneForTid t)).count = 0 := congrArg BitVec.toNat h0
    omega

theorem wp_releaseSRound (hh : 0 < h.s) {value : BitVec 16} (hv : HoldsReader value) :
    wp outline t Changes (releaseSRound t value)
      (fun r g => Sum.elim (fun v => g = h ∧ HoldsReader v)
        (fun b => b = true ∧ g = Op.releaseS.apply h) r) h := by
  rw [releaseSRound, if_neg (not_not.mpr hv.1), if_neg hv.2]
  refine wp_bind (wp_cas trivial fun w γ hpre => ?_)
  have ht : 0 < (γ t).s := by rwa [hpre.own]
  obtain ⟨hx, -, hcount⟩ := hpre.inv.of_s ht
  refine ⟨trivial, fun hw => ?_, fun _ => ?_⟩
  · have hlane : decode w (laneForTid t) = readLane value := congrArg readLane hw
    refine ⟨Op.releaseS.apply h, .inr ⟨.releaseS, by simpa [Op.owned] using hh, rfl⟩, ?_, trivial, ?_⟩
    · refine hpre.inv.setReaders hx (c := (decode w (laneForTid t)).count - 1) ?_ ?_ ?_ ?_
      · rw [hpre.own] at ht ⊢
        simp only [Op.apply]
        omega
      · rw [hpre.own]
        rfl
      · rw [hpre.own]
        rfl
      · rw [hlane, ← readLane_pred hv.2]
        exact decode_setLane w _ _
    · exact wp_bind (wp_learn trivial trivial (.inl rfl) fun _ _ _ =>
        ⟨trivial, trivial, rfl, rfl⟩)
  · refine ⟨h, .inl rfl, by rw [hpre.update]; exact hpre.inv, trivial, trivial, rfl, ?_⟩
    exact holdsReader hpre.inv ht

/-- A reader's release never fails: whatever lane it sees counts it. -/
theorem wp_tryReleaseS (hh : 0 < h.s) :
    wp outline t Changes (tryReleaseS t) (fun r g => r = true ∧ g = Op.releaseS.apply h) h := by
  refine wp_bind (wp_learn trivial trivial (.inl rfl) fun w γ hpre => ⟨trivial, ?_⟩)
  have ht : 0 < (γ t).s := by rwa [hpre.own]
  refine wp_loop (fun v g => g = h ∧ HoldsReader v) trivial ⟨rfl, holdsReader hpre.inv ht⟩ ?_
  rintro v _ ⟨rfl, hv⟩
  exact wp_mono (wp_releaseSRound hh hv) fun r g _ hr => by cases r <;> exact hr

theorem wp_tryAcquireX :
    wp outline t Changes tryAcquireX (fun r g => g = client.finish h .acquireX r) h := by
  refine wp_bind (wp_learn trivial trivial (.inl rfl) fun s γ _ => ⟨trivial, ?_⟩)
  split
  · exact ⟨trivial, rfl⟩
  rename_i hs
  refine wp_bind (wp_casWeak trivial fun w γ hpre => ⟨trivial, fun hw => ?_, ?_⟩)
  · have hzero : w = 0 := Eq.trans hw (not_not.mp hs)
    obtain ⟨hx, hsx, hr⟩ := hpre.inv.idle_iff.mp hzero
    refine ⟨Op.acquireX.apply h, .inr ⟨.acquireX, rfl, rfl⟩, ?_, trivial, trivial, rfl⟩
    refine Inv.setX hr hsx true ?_ ?_ ?_
    · rw [hx, hpre.own]
      simp [Op.apply]
    · rw [hpre.own]
      rfl
    · rw [hpre.own]
      rfl
  · exact ⟨h, .inl rfl, by rw [hpre.update]; exact hpre.inv, trivial, trivial, rfl⟩

theorem wp_releaseX (hh : 0 < h.x) :
    wp outline t Changes releaseX (fun r g => r = true ∧ g = Op.releaseX.apply h) h := by
  refine wp_bind (wp_store trivial fun w γ hpre => ⟨trivial, Op.releaseX.apply h,
    .inr ⟨.releaseX, by simpa [Op.owned] using hh, rfl⟩, ?_, trivial, trivial, rfl, rfl⟩)
  have ht : 0 < (γ t).x := by rwa [hpre.own]
  obtain ⟨hx, hsx, hr⟩ := hpre.inv.of_x ht
  have hle := le_xHolders (a := γ) t
  refine Inv.setX hr hsx false ?_ ?_ ?_
  · rw [hpre.own] at ht hle ⊢
    simp only [Op.apply, Bool.false_eq_true, if_false]
    omega
  · rw [hpre.own]
    rfl
  · rw [hpre.own]
    rfl

theorem wp_tryAcquireSx :
    wp outline t Changes tryAcquireSx (fun r g => g = client.finish h .acquireSx r) h := by
  refine wp_bind (wp_learn trivial trivial (.inl rfl) fun s γ _ => ⟨trivial, ?_⟩)
  split
  · exact ⟨trivial, rfl⟩
  dsimp only
  generalize laneValue (wordAt.get s) 0 = value
  split
  · exact ⟨trivial, rfl⟩
  rename_i hs
  have hfree : value &&& sxFlag.setWidth 16 = 0 ∧ value &&& readerSentinel = 0 := by
    have hor := not_not.mp hs
    rw [BitVec.and_or_distrib_left] at hor
    exact BitVec.or_eq_zero_iff.mp hor
  refine wp_bind (wp_casWeak trivial fun w γ hpre => ⟨trivial, fun hw => ?_, ?_⟩)
  · have hlane : decode w 0 = readLane value := congrArg readLane hw
    have hsent : (decode w 0).sentinel = false := by
      rw [hlane, Bool.eq_false_iff]
      exact fun h' => (sentinel_iff value).mpr h' hfree.2
    have hflag : (decode w 0).flag = false := by
      rw [hlane, Bool.eq_false_iff]
      exact fun h' => (flag_iff value).mpr h' hfree.1
    have hsx : sxHolders γ = 0 := by
      have hf := hpre.inv.flag 0
      rw [hflag, eq_comm, decide_eq_false_iff_not] at hf
      exact le_antisymm (not_lt.mp fun hpos => hf (.inl ⟨rfl, hpos⟩)) sxHolders_nonneg
    refine ⟨Op.acquireSx.apply h, .inr ⟨.acquireSx, rfl, rfl⟩, ?_, trivial, trivial, rfl⟩
    refine hpre.inv.setSx (hpre.inv.no_x hsent) (b := true) ?_ ?_ ?_ ?_ ?_
    · rw [hpre.own, hsx]
      simp [Op.apply]
    · rw [hpre.own, hsx]
      simp [Op.apply]
    · rw [hpre.own]
      rfl
    · rw [hpre.own]
      rfl
    · rw [hlane, ← readLane_setFlag]
      exact decode_setLane w _ _
  · exact ⟨h, .inl rfl, by rw [hpre.update]; exact hpre.inv, trivial, trivial, rfl⟩

theorem wp_tryReleaseSx (hh : 0 < h.sx) :
    wp outline t Changes tryReleaseSx (fun r g => r = true ∧ g = Op.releaseSx.apply h) h := by
  refine wp_bind (wp_rmw trivial fun w γ hpre => ?_)
  have ht : 0 < (γ t).sx := by rwa [hpre.own]
  obtain ⟨hx, hsx, hflag⟩ := hpre.inv.of_sx ht
  have hle := le_sxHolders (a := γ) t
  refine ⟨trivial, Op.releaseSx.apply h, .inr ⟨.releaseSx, by simpa [Op.owned] using hh, rfl⟩, ?_,
    trivial, ?_⟩
  · refine hpre.inv.setSx hx (b := false) ?_ ?_ ?_ ?_ ?_
    · refine (decide_eq_false ?_).symm
      rw [hpre.own, hsx] at *
      simp only [Op.apply]
      omega
    · rw [hpre.own, hsx] at *
      simp only [Op.apply]
      omega
    · rw [hpre.own]
      rfl
    · rw [hpre.own]
      rfl
    · rw [show decode w 0 = readLane (laneValue w 0) from rfl, ← readLane_clearFlag]
      exact decode_setLane w _ _
  · have hne : (laneAt 0).get w &&& sxFlag.setWidth 16 ≠ 0 := (flag_iff _).mpr hflag
    dsimp only
    rw [if_neg hne]
    exact wp_bind (wp_learn trivial trivial (.inl rfl) fun _ _ _ => ⟨trivial, trivial, rfl, rfl⟩)

end Steps

/-! ### Releases that run undisturbed -/

section Alone

variable {w : BitVec 64} {a : Tid → Holds} {t : Tid}

theorem total_tryReleaseS (hi : Inv w a) (ht : 0 < (a t).s) :
    Total (fun _ => True) (fun r _ => r = true) (tryReleaseS t) w := by
  have hv := holdsReader hi ht
  refine .bind (total_load trivial (total_loop ?_))
  -- nobody moves the lane, so the first compare-and-swap succeeds
  have hround : releaseSRound t (laneValue (wordAt.get w) (laneForTid t)) = _ :=
    (if_neg (not_not.mpr hv.1)).trans (if_neg hv.2)
  rw [hround]
  refine .bind (total_cas trivial (fun _ => ?_) fun hne => absurd rfl hne)
  exact .bind (total_load trivial (.ret rfl))

theorem total_tryReleaseSx (hi : Inv w a) (ht : 0 < (a t).sx) :
    Total (fun _ => True) (fun r _ => r = true) tryReleaseSx w := by
  obtain ⟨-, -, hflag⟩ := hi.of_sx ht
  have hne : (laneAt 0).get w &&& sxFlag.setWidth 16 ≠ 0 := (flag_iff _).mpr hflag
  refine .bind (total_rmw trivial ?_)
  dsimp only
  rw [if_neg hne]
  exact .bind (total_load trivial (.ret rfl))

theorem total_releaseX : Total (fun _ => True) (fun r _ => r = true) releaseX w :=
  .bind (total_store trivial (.ret rfl))

/-- A holder that is left alone gets its release done. -/
theorem total_release (hi : Inv w a) {o : Op} (hr : o.isRelease = true) (ho : o.owned (a t) = true) :
    Total (fun _ => True) (fun r _ => r = true) (client.code t o) w := by
  cases o with
  | acquireS | acquireSx | acquireX => cases hr
  | releaseS => exact total_tryReleaseS hi (by simpa [Op.owned] using ho)
  | releaseSx => exact total_tryReleaseSx hi (by simpa [Op.owned] using ho)
  | releaseX => exact total_releaseX

end Alone

/-! ### Every run -/

/-- What the word allows is what the abstract state allows. -/
theorem compatible_of_inv {w' : BitVec 64} {a : Tid → Holds} {t : Tid} (o : Op)
    (h' : Inv w' (Function.update a t (o.apply (a t)))) : o.Compatible a := by
  have hx : ∀ u, ((a u).x : ℤ) ≤ xHolders a := le_xHolders
  have hsx : ∀ u, ((a u).sx : ℤ) ≤ sxHolders a := le_sxHolders
  cases o with
  | releaseS | releaseSx | releaseX => trivial
  | acquireS =>
    obtain ⟨h0, -, -⟩ := h'.of_s (t := t) (by simp [Op.apply])
    simp only [xHolders_update, Op.apply, sub_self, add_zero] at h0
    intro u
    have := hx u
    omega
  | acquireSx =>
    obtain ⟨h0, h1, -⟩ := h'.of_sx (t := t) (by simp [Op.apply])
    simp only [xHolders_update, sxHolders_update, Op.apply, sub_self, add_zero] at h0 h1
    intro u
    have := hx u
    have := hsx u
    push_cast at h1
    omega
  | acquireX =>
    obtain ⟨h1, h0, hr⟩ := h'.of_x (t := t) (by simp [Op.apply])
    simp only [xHolders_update, sxHolders_update, readers_update, Op.apply, sub_self, add_zero,
      ite_self] at h0 h1 hr
    intro u
    have := hx u
    have := hsx u
    have hs := le_readers (a := a) u
    rw [hr] at hs
    push_cast at h1
    cases ha : a u
    simp only [ha] at *
    simp only [Holds.none, Holds.mk.injEq]
    omega

theorem proved : spec.Proved client where
  stay := fun _ _ _ _ _ => .inl rfl
  idle := fun _ _ _ _ => ⟨trivial, .inl rfl⟩
  start := fun _ _ _ _ _ _ => .inl rfl
  call := by
    rintro t h o g ha hg
    obtain rfl : g = h := hg
    obtain ⟨-, ho⟩ : t ≠ 0 ∧ o.owned g = true := by simpa [client] using ha
    cases o with
    | acquireS => exact wp_mono wp_tryAcquireS fun _ _ _ hg => ⟨fun h' => absurd h' (by decide), hg⟩
    | acquireSx => exact wp_mono wp_tryAcquireSx fun _ _ _ hg => ⟨fun h' => absurd h' (by decide), hg⟩
    | acquireX => exact wp_mono wp_tryAcquireX fun _ _ _ hg => ⟨fun h' => absurd h' (by decide), hg⟩
    | releaseS =>
      refine wp_mono (wp_tryReleaseS (by simpa [Op.owned] using ho)) ?_
      rintro _ _ - ⟨rfl, rfl⟩
      exact ⟨fun _ => rfl, rfl⟩
    | releaseSx =>
      refine wp_mono (wp_tryReleaseSx (by simpa [Op.owned] using ho)) ?_
      rintro _ _ - ⟨rfl, rfl⟩
      exact ⟨fun _ => rfl, rfl⟩
    | releaseX =>
      refine wp_mono (wp_releaseX (by simpa [Op.owned] using ho)) ?_
      rintro _ _ - ⟨rfl, rfl⟩
      exact ⟨fun _ => rfl, rfl⟩

theorem tally_none {T : Type} [Fintype T] {f : T → Holds → ℤ} (hf : ∀ t, f t .none = 0) :
    tally f (fun _ => .none) = 0 :=
  Finset.sum_eq_zero fun t _ => hf t

theorem sums_none : xHolders (fun _ => .none) = 0 ∧ sxHolders (fun _ => .none) = 0 ∧
    ∀ i, readers i (fun _ => .none) = 0 := by
  refine ⟨?_, ?_, fun i => ?_⟩
  · rw [xHolders]
    exact tally_none fun t => rfl
  · rw [sxHolders]
    exact tally_none fun t => rfl
  · rw [readers]
    exact tally_none fun t => by simp [Holds.none]

theorem inv_init : Inv 0 fun _ => .none := by
  obtain ⟨hx, hsx, hs⟩ := sums_none
  have h := Inv.setX (t := 0) (g := .none) hs hsx false (by simp [hx]) rfl rfl
  rwa [Function.update_eq_self_iff.mpr rfl] at h

theorem holds_init : spec.Holds client WordConfig.init fun _ => .none where
  inv := inv_init
  moved := fun _ => ⟨.none, .inl rfl⟩
  idle := fun _ _ => rfl
  busy := by simp [WordConfig.init]

/-- The word refines the abstract state: every step of every thread leaves the holds as they are or
    is a legal change, and the word says exactly what is held, with X alone, at most one SX, `0`
    when nobody holds anything, and releases that never fail. -/
theorem word_refines_holders :
    ∃ Rel : WordConfig → (Tid → Holds) → Prop,
      Simulates client WordConfig.init (fun _ => .none) Step Rel ∧
      ∀ c a, Rel c a →
        Decodes c.mem a ∧ Excludes a ∧ ((∀ t, a t = .none) → c.mem = 0) ∧
        (∀ t, c.pc t = none → a t = c.held t) ∧
        (∀ t o r, o.isRelease = true → c.pc t = some (o, .ret r) → r = true) ∧
        (∀ t o, o.isRelease = true → c.pc t = none → o.owned (c.held t) = true →
          Total (fun _ => True) (fun r _ => r = true) (client.code t o) c.mem) := by
  refine ⟨spec.Holds client, proved.simulates holds_init (fun _ _ _ _ => trivial) ?_, ?_⟩
  · rintro w w' - a t g - hw' (rfl | ⟨o, ho, rfl⟩)
    · exact .inl rfl
    · exact .inr (.op o (compatible_of_inv o hw') ho)
  · intro c a h
    have hi : Inv c.mem a := h.inv
    refine ⟨hi.toDecodes, hi.toExcludes, fun ha => ?_, h.idle, fun t o r hr hp => h.returned hp hr,
      fun t o hr hp ho => ?_⟩
    · obtain rfl : a = fun _ => .none := funext ha
      exact hi.idle_iff.mpr sums_none
    · have hrest : a t = c.held t := h.idle t hp
      exact total_release hi hr (hrest ▸ ho)

end Packed
end UbsAtomic
