import UbsAtomic.Data.Bits
import UbsAtomic.Lock.QueuePart
import UbsAtomic.Lock.WakeChain

/-! Recovery after the failure of a process (`recover` of `ub_distribute_lock.cpp`).

    `lock_word` alone decides which routine runs; the owners and the bitmap then say what belonged to
    the failed process.

        0         recover_exclusive_x
        1 ..      recover_shared_sx_s ──▶ recover_shared_lock
        32768     recover_exclusive_sx
        32769 ..  recover_shared_lock
        65536     nothing

    Then half-written queue entries and those of the process are given up, somebody is woken if the
    lock is free, and one reference is dropped.

    `compare_exchange_weak` is a parameter, so that the routines can be looked at with one that does
    not fail for no reason. -/

namespace UbsAtomic

open Conc Conc.Prog

namespace Recover

/-! ### The code -/

/-- `compare_exchange_weak`: whether it stored, and the value it found. -/
structure Swap where
  run : {ι : Type} → [DecidableEq ι] → Place Mem ι → ι → ι → Call (Bool × ι)

def Swap.weak : Swap := ⟨casWeak⟩

/-- One that fails only if another value is found. -/
def Swap.strong : Swap := ⟨cas⟩

/-- `parse_owner_pid`. -/
def parseOwnerPid (owner : ℕ) : ℕ := u32 (owner / 4294967296)

/-- The loop of `bit_count_u32`, at most `n` rounds of it. -/
def bitCount : ℕ → BitVec 32 → ℕ
  | 0, _ => 0
  | n + 1, value => if value = 0#32 then 0 else bitCount n (value &&& (value - 1#32)) + 1

/-- `bit_count_u32`; every round drops a bit. -/
def bitCountU32 (value : BitVec 32) : ℕ := bitCount 32 value

/-- `valid_shared_owner_count`. -/
def validSharedOwnerCount (bitmap : BitVec 32) : ℕ := bitCountU32 (bitmap &&& 65535#32)

/-- `expected_shared_owner_count`. -/
def expectedSharedOwnerCount (lockWord : ℤ) : ℕ :=
  if lockWord > 0 ∧ lockWord < xLockHalfDecr then (xLockHalfDecr - lockWord).toNat
  else if lockWord > xLockHalfDecr ∧ lockWord < xLockDecr then (xLockDecr - lockWord).toNat
  else 0

variable (swap : Swap)

/-- `try_take_valid_owner`. -/
def tryTakeValidOwner (slot : Place Mem ℕ) (retryTimes : ℕ) : Call (Option ℕ) :=
  loop (fun i => do
    if i ≥ retryTimes then
      return .inr none
    let owner ← load slot
    if owner = lockInvalidOwner then
      return .inl (i + 1)
    let taken ← swap.run slot owner lockInvalidOwner
    return if taken.1 then .inr (some owner) else .inl (i + 1)) 0

/-- `clear_failed_owner_bit` of `recover_shared_lock`. -/
def clearFailedOwnerBit (mask : BitVec 32) : Call Bool := do
  let bitmap ← load Shm.sharedOwnerBitmap
  loop (fun bitmap => do
    if bitmap &&& mask = 0#32 then
      return .inr false
    let cleared ← swap.run Shm.sharedOwnerBitmap bitmap (bitmap &&& ~~~mask)
    return if cleared.1 then .inr true else .inl cleared.2) bitmap

/-- `force_release_to_bitmap` of `recover_shared_lock`. -/
def forceReleaseToBitmap (actual : ℕ) : Call Unit := do
  let old ← load Shm.lockWord
  loop (fun old => do
    if expectedSharedOwnerCount old ≤ actual then
      return .inr ()
    let raised ← swap.run Shm.lockWord old (old + (expectedSharedOwnerCount old - actual : ℕ))
    return if raised.1 then .inr () else .inl raised.2) old

/-- `recover_shared_lock`. -/
def recoverSharedLock (p : ℕ) : Call Unit := do
  if p ≥ ubMaxNodes then
    return ()
  let cur ← load Shm.lockWord
  let bitmap ← load Shm.sharedOwnerBitmap
  if validSharedOwnerCount bitmap = expectedSharedOwnerCount cur then
    let cleared ← clearFailedOwnerBit swap (1#32 <<< p)
    if cleared then
      store Shm.reserveLockOwner lockInvalidOwner
      let _ ← fetch Shm.lockWord (· + 1)
      return ()
    return ()
  if validSharedOwnerCount bitmap < expectedSharedOwnerCount cur then
    let _ ← clearFailedOwnerBit swap (1#32 <<< p)
    store Shm.reserveLockOwner lockInvalidOwner
    forceReleaseToBitmap swap (validSharedOwnerCount bitmap)
  else
    let cleared ← clearFailedOwnerBit swap (1#32 <<< p)
    ifThen cleared (store Shm.reserveLockOwner lockInvalidOwner)

/-- What the two exclusive routines do with a hold of the failed process. -/
def freeExclusive (recursive : Place Mem ℕ) : Call Unit := do
  store Shm.reserveLockOwner lockInvalidOwner
  store recursive 0
  store Shm.lockWord xLockDecr

/-- The two exclusive routines; a word that is taken without an owner is half-written. -/
def recoverExclusive (slot recursive : Place Mem ℕ) (p : ℕ) : Call Unit := do
  match ← tryTakeValidOwner swap slot 5 with
  | none => freeExclusive recursive
  | some owner =>
    if parseOwnerPid owner ≠ p then
      store slot owner
    else
      freeExclusive recursive

/-- `recover_exclusive_x`. -/
def recoverExclusiveX (p : ℕ) : Call Unit := recoverExclusive swap Shm.lockOwnerX Shm.xRecursive p

/-- `recover_exclusive_sx`. -/
def recoverExclusiveSx (p : ℕ) : Call Unit := recoverExclusive swap Shm.lockOwnerSx Shm.sxRecursive p

/-- The SX hold goes, the S holds stay. -/
def dropSx : Call Unit := do
  store Shm.reserveLockOwner lockInvalidOwner
  store Shm.sxRecursive 0
  let _ ← fetch Shm.lockWord (· + xLockHalfDecr)

/-- `recover_shared_sx_s`. -/
def recoverSharedSxS (p : ℕ) : Call Unit := do
  match ← tryTakeValidOwner swap Shm.lockOwnerSx 5 with
  | none =>
    dropSx
    recoverSharedLock swap p
  | some owner =>
    if parseOwnerPid owner = p then
      dropSx
      recoverSharedLock swap p
    else
      store Shm.lockOwnerSx owner
      recoverSharedLock swap p

/-- The part of `recover` that gives up holds. -/
def recoverHolds (p : ℕ) : Call Unit := do
  let cur ← load Shm.lockWord
  if cur = 0 then
    recoverExclusiveX swap p
  else if cur = xLockHalfDecr then
    recoverExclusiveSx swap p
  else if cur > 0 ∧ cur < xLockHalfDecr then
    recoverSharedSxS swap p
  else if cur > xLockHalfDecr ∧ cur < xLockDecr then
    recoverSharedLock swap p
  else
    return ()

/-- One slot of the wait queue. -/
def cleanSlot (p i : ℕ) : Call Unit := do
  let seq ← loadAt (.shared .step) (sharedQueue.seq i)
  if seq = .writing then
    let _ ← sharedQueue.tryMarkTimeout i
    return ()
  let waiter ← loadAt (.shared .step) (sharedQueue.payload i)
  if waiter.location.nodeId.val ≠ p then
    return ()
  let _ ← sharedQueue.tryMarkTimeout i

/-- The part of `recover` that gives up queue entries, slot by slot. -/
def cleanSlots (p : ℕ) : List ℕ → Call Unit
  | [] => return ()
  | i :: is => do
    cleanSlot p i
    cleanSlots p is

/-- The part of `recover` that wakes. -/
def wakeIfFree (l : Location) : Call Unit := do
  let cur ← load Shm.lockWord
  ifThen (cur = xLockDecr) (wakeAfterUnlockExclusive l)

/-- The part of `recover` that drops a reference. -/
def dropReference : Call Unit := do
  let cur ← load Shm.isInited
  loop (fun cur => do
    if cur ≤ 1 then
      return .inr ()
    let dropped ← swap.run Shm.isInited cur (cur - 1)
    return if dropped.1 then .inr () else .inl dropped.2) cur

/-- `recover` with the given compare-and-swap. -/
def recoverBy (p : ℕ) (l : Location) : Call Result := do
  if p ≥ ubMaxNodes then
    return .error
  let initState ← load Shm.isInited
  if initState < 0 then
    return .error
  recoverHolds swap p
  cleanSlots p (List.range ubMaxNodes)
  wakeIfFree l
  dropReference swap
  return .success

/-- `DistributedLock::recover`. -/
def recover (p : ℕ) (l : Location) : Call Result := recoverBy .weak p l

/-! ### Counting bits -/

theorem bitCount_eq {n : ℕ} {value : BitVec 32} (h : (Bits.ones value).card ≤ n) :
    bitCount n value = (Bits.ones value).card := by
  induction n generalizing value with
  | zero => simpa [bitCount] using (Nat.le_zero.mp h).symm
  | succ n ih =>
    rw [bitCount]
    split_ifs with hz
    · rw [hz, Bits.ones_zero, Finset.card_empty]
    · obtain ⟨k, hk, hones⟩ := Bits.exists_ones_and_pred hz
      have hcard := Finset.card_erase_of_mem hk
      have hpos := Finset.card_pos.mpr ⟨k, hk⟩
      rw [ih (by rw [hones]; omega), hones]
      omega

/-- `bit_count_u32` counts the bits. -/
theorem bitCountU32_eq (value : BitVec 32) : bitCountU32 value = (Bits.ones value).card := by
  refine bitCount_eq ?_
  have hle := Finset.card_le_card (Finset.filter_subset (fun i => value.getLsbD i = true) (.range 32))
  rwa [Finset.card_range] at hle

theorem ones_and_nodes (bitmap : BitVec 32) :
    Bits.ones (bitmap &&& 65535#32) = (Bits.ones bitmap).filter (· < ubMaxNodes) := by
  have hmask : ∀ i < 32, (65535#32).getLsbD i = decide (i < 16) := by decide
  ext i
  rw [Finset.mem_filter, Bits.mem_ones, Bits.mem_ones, BitVec.getLsbD_and]
  by_cases hi : i < 32
  · rw [hmask i hi]
    simp [ubMaxNodes]
  · have hb : bitmap.getLsbD i = false := BitVec.getLsbD_of_ge bitmap i (Nat.le_of_not_lt hi)
    simp [hb]

/-! ### Who holds the lock -/

/-- The threads that hold X and SX with their recursion counts, and the nodes that hold S. -/
structure Holding where
  x : Option (Location × ℕ)
  sx : Option (Location × ℕ)
  s : Finset ℕ

namespace Holding

variable (c : Holding)

/-- X is held alone, and every holder is on a node of the lock. -/
structure Valid : Prop where
  x_node : ∀ h, c.x = some h → h.1.nodeId.val < ubMaxNodes
  sx_node : ∀ h, c.sx = some h → h.1.nodeId.val < ubMaxNodes
  s_node : ∀ n ∈ c.s, n < ubMaxNodes
  x_alone : c.x.isSome → c.sx = none ∧ c.s = ∅

/-- `lock_owner_x` and its like. -/
def owner (o : Option (Location × ℕ)) : ℕ := o.elim lockInvalidOwner (makeGlobalOwner ·.1)

def depth (o : Option (Location × ℕ)) : ℕ := o.elim 0 (·.2)

/-- What is left of `lock_word`. -/
def word : ℤ :=
  if c.x.isSome then 0 else (if c.sx.isSome then xLockHalfDecr else xLockDecr) - c.s.card

/-- The shared object has the fields of the holders. -/
structure Encodes (u : UbRwLock) : Prop where
  word : u.lockWord = c.word
  ownerX : u.lockOwnerX = owner c.x
  depthX : u.xRecursive = depth c.x
  ownerSx : u.lockOwnerSx = owner c.sx
  depthSx : u.sxRecursive = depth c.sx
  bitmap : Bits.ones u.sharedOwnerBitmap = c.s

/-- What of a hold is left when process `p` is gone. -/
def keep (p : ℕ) (o : Option (Location × ℕ)) : Option (Location × ℕ) :=
  o.filter fun h => h.1.nodeId.val ≠ p

/-- The holders without those on node `p`. -/
def without (p : ℕ) : Holding := ⟨keep p c.x, keep p c.sx, c.s.erase p⟩

/-- Somebody on node `p` holds the lock. -/
def On (p : ℕ) : Prop :=
  (∃ h, c.x = some h ∧ h.1.nodeId.val = p) ∨ (∃ h, c.sx = some h ∧ h.1.nodeId.val = p) ∨ p ∈ c.s

open Classical in
/-- The shared object after the holds of node `p` have been given up. -/
noncomputable def recovered (p : ℕ) (u : UbRwLock) : UbRwLock :=
  { u with
    lockWord := (c.without p).word
    lockOwnerX := owner (keep p c.x)
    xRecursive := depth (keep p c.x)
    lockOwnerSx := owner (keep p c.sx)
    sxRecursive := depth (keep p c.sx)
    sharedOwnerBitmap := u.sharedOwnerBitmap &&& ~~~(1#32 <<< p)
    reserveLockOwner := if c.On p then lockInvalidOwner else u.reserveLockOwner }

section Recovered

variable {c : Holding} {p : ℕ} {u : UbRwLock} {o : Option (Location × ℕ)}

theorem keep_none : keep p none = none := rfl

theorem keep_some_self {h : Location × ℕ} (hn : h.1.nodeId.val = p) : keep p (some h) = none := by
  simp [keep, Option.filter, hn]

theorem keep_eq_self (h : ∀ a, o = some a → a.1.nodeId.val ≠ p) : keep p o = o := by
  cases o with
  | none => rfl
  | some a => simp [keep, Option.filter, h a rfl]

theorem encodes_recovered (he : c.Encodes u) (hp : p < ubMaxNodes) :
    (c.without p).Encodes (c.recovered p u) := by
  refine ⟨rfl, rfl, rfl, rfl, rfl, ?_⟩
  have h32 : p < 32 := lt_trans hp (by decide)
  show Bits.ones (u.sharedOwnerBitmap &&& ~~~(1#32 <<< p)) = c.s.erase p
  rw [Bits.ones_clearBit _ h32, he.bitmap]

/-- The object is known by its holders and by what is not a hold. -/
theorem eq_recovered {v : UbRwLock} (he : c.Encodes u) (hp : p < ubMaxNodes)
    (hv : (c.without p).Encodes v)
    (hrest : { v with
      lockWord := u.lockWord
      lockOwnerX := u.lockOwnerX
      xRecursive := u.xRecursive
      lockOwnerSx := u.lockOwnerSx
      sxRecursive := u.sxRecursive
      sharedOwnerBitmap := u.sharedOwnerBitmap
      reserveLockOwner := u.reserveLockOwner } = u)
    (hon : c.On p → v.reserveLockOwner = lockInvalidOwner)
    (hoff : ¬ c.On p → v.reserveLockOwner = u.reserveLockOwner) : v = c.recovered p u := by
  have hbits : v.sharedOwnerBitmap = u.sharedOwnerBitmap &&& ~~~(1#32 <<< p) := by
    have h32 : p < 32 := lt_trans hp (by decide)
    rw [← Bits.ones_inj, hv.bitmap, Bits.ones_clearBit _ h32, he.bitmap]
    rfl
  have hreserve : v.reserveLockOwner = (c.recovered p u).reserveLockOwner := by
    rw [recovered]
    split_ifs with h
    · exact hon h
    · exact hoff h
  have h₁ := hv.word
  have h₂ := hv.ownerX
  have h₃ := hv.depthX
  have h₄ := hv.ownerSx
  have h₅ := hv.depthSx
  cases v
  cases u
  simp only [UbRwLock.mk.injEq] at hrest
  obtain ⟨-, hq, -, -, -, -, -, hi, -, hn⟩ := hrest
  simp only [recovered, UbRwLock.mk.injEq] at hreserve ⊢
  exact ⟨h₁, hq, h₂, h₄, hreserve, h₅, h₃, hi, hbits, hn⟩

/-- Nothing changes where nobody on the node holds the lock. -/
theorem recovered_of_not_on (he : c.Encodes u) (hp : p < ubMaxNodes) (hon : ¬ c.On p) :
    c.recovered p u = u := by
  have hx : keep p c.x = c.x := keep_eq_self fun a ha hn => hon (.inl ⟨a, ha, hn⟩)
  have hsx : keep p c.sx = c.sx := keep_eq_self fun a ha hn => hon (.inr (.inl ⟨a, ha, hn⟩))
  have hs : p ∉ c.s := fun hs => hon (.inr (.inr hs))
  have hw : c.without p = c := by rw [without, hx, hsx, Finset.erase_eq_of_notMem hs]
  exact (eq_recovered he hp (hw.symm ▸ he) rfl (fun h => absurd h hon) fun _ => rfl).symm

end Recovered

end Holding

/-! ### The routines -/

/-- The compare-and-swap does not fail for no reason while the choices are in `C`. -/
def Swap.Steady (C : ℕ → Prop) (swap : Swap) : Prop :=
  ∀ {ι : Type} [DecidableEq ι] (place : Place Mem ι) (x y : ι) (Q : Bool × ι → Mem → Prop) (m : Mem),
    (place.get m = x → Q (true, x) (place.set y m)) →
      (place.get m ≠ x → Q (false, place.get m) m) → Total C Q (swap.run place x y) m

theorem steady_weak : Swap.weak.Steady (· = 0) := fun _ _ _ _ _ ht hne => total_casWeak ht hne

theorem steady_strong {C : ℕ → Prop} (hC : C 0) : Swap.strong.Steady C :=
  fun _ _ _ _ _ ht hne => total_cas hC ht hne

/-- The object without its SX hold. -/
def dropped (u : UbRwLock) : UbRwLock :=
  { u with
    lockOwnerSx := lockInvalidOwner
    reserveLockOwner := lockInvalidOwner
    sxRecursive := 0
    lockWord := u.lockWord + xLockHalfDecr }

section Routines

variable {swap : Swap} {C : ℕ → Prop} (hw : swap.Steady C) (hC : C 0) {m : Mem} {p : ℕ}

include hw hC

theorem total_tryTakeValidOwner {slot : Place Mem ℕ} {n : ℕ} {Q : Option ℕ → Mem → Prop}
    (hvalid : slot.get m ≠ lockInvalidOwner)
    (hQ : Q (some (slot.get m)) (slot.set lockInvalidOwner m)) :
    Total C Q (tryTakeValidOwner swap slot (n + 1)) m := by
  refine total_loop ?_
  rw [if_neg (by omega)]
  refine .bind (total_load hC ?_)
  rw [if_neg hvalid]
  exact .bind (hw _ _ _ _ _ (fun _ => .ret hQ) fun hne => absurd rfl hne)

theorem total_clearFailedOwnerBit (hp : p < ubMaxNodes) {Q : Bool → Mem → Prop}
    (hset : p ∈ Bits.ones m.shm.sharedOwnerBitmap → Q true { m with shm := { m.shm with
      sharedOwnerBitmap := m.shm.sharedOwnerBitmap &&& ~~~(1#32 <<< p) } })
    (hclear : p ∉ Bits.ones m.shm.sharedOwnerBitmap → Q false m) :
    Total C Q (clearFailedOwnerBit swap (1#32 <<< p)) m := by
  have h32 : p < 32 := lt_trans hp (by decide)
  refine .bind (total_load hC (total_loop ?_))
  have htest := Bits.and_bit_eq_zero_iff m.shm.sharedOwnerBitmap h32
  split_ifs with hz
  · exact .ret (hclear (htest.mp hz))
  · refine .bind (hw _ _ _ _ _ (fun _ => .ret ?_) fun hne => absurd rfl hne)
    exact hset (not_not.mp fun hnot => hz (htest.mpr hnot))

variable {c : Holding}

omit hw hC in
/-- The two counts that `recover_shared_lock` compares are equal. -/
theorem counts_agree (hv : c.Valid) (hx : c.x = none) (he : c.Encodes m.shm) :
    validSharedOwnerCount m.shm.sharedOwnerBitmap = expectedSharedOwnerCount m.shm.lockWord := by
  have hall : c.s.filter (· < ubMaxNodes) = c.s := Finset.filter_true_of_mem hv.s_node
  have hle : c.s.card ≤ 16 := by
    have hsub : c.s ⊆ Finset.range 16 := fun n hn => Finset.mem_range.mpr (hv.s_node n hn)
    simpa using Finset.card_le_card hsub
  rw [validSharedOwnerCount, bitCountU32_eq, ones_and_nodes, he.bitmap, hall, he.word,
    Holding.word, hx, expectedSharedOwnerCount]
  simp only [Option.isSome_none, Bool.false_eq_true, if_false, xLockHalfDecr, xLockDecr]
  split_ifs <;> omega

/-- `recover_shared_lock` where SX, if it is held, is held on another node. -/
theorem total_recoverSharedLock (hp : p < ubMaxNodes) (hv : c.Valid) (hx : c.x = none)
    (hsx : ∀ h, c.sx = some h → h.1.nodeId.val ≠ p) (he : c.Encodes m.shm) :
    Total C (fun _ m' => m' = { m with shm := c.recovered p m.shm }) (recoverSharedLock swap p) m := by
  rw [recoverSharedLock, if_neg (Nat.not_le.mpr hp)]
  refine .bind (total_load hC (.bind (total_load hC ?_)))
  have hcounts : validSharedOwnerCount (Shm.sharedOwnerBitmap.get m)
      = expectedSharedOwnerCount (Shm.lockWord.get m) := counts_agree hv hx he
  rw [if_pos hcounts]
  refine .bind (total_clearFailedOwnerBit hw hC hp (fun hs => ?_) fun hs => ?_)
  · rw [he.bitmap] at hs
    have hon : c.On p := .inr (.inr hs)
    have hkeep : Holding.keep p c.x = c.x := by rw [hx]; rfl
    rw [if_pos rfl]
    have hfields : { m.shm with
        sharedOwnerBitmap := m.shm.sharedOwnerBitmap &&& ~~~(1#32 <<< p)
        reserveLockOwner := lockInvalidOwner
        lockWord := m.shm.lockWord + 1 } = c.recovered p m.shm := by
      refine Holding.eq_recovered he hp ?_ rfl (fun _ => rfl) fun hoff => absurd hon hoff
      rw [Holding.without, hkeep, Holding.keep_eq_self hsx]
      refine ⟨?_, he.ownerX, he.depthX, he.ownerSx, he.depthSx, ?_⟩
      · have hcard := Finset.card_erase_add_one hs
        show m.shm.lockWord + 1 = _
        rw [he.word, Holding.word, Holding.word, hx]
        simp only [Option.isSome_none, Bool.false_eq_true, if_false]
        omega
      · rw [← he.bitmap]
        exact Bits.ones_clearBit _ (lt_trans hp (by decide))
    rw [← hfields]
    exact .bind (total_store hC (.bind (total_rmw hC (.ret rfl))))
  · rw [he.bitmap] at hs
    have hon : ¬ c.On p := by
      rintro (⟨h, hh, -⟩ | ⟨h, hh, hn⟩ | hmem)
      · simp [hx] at hh
      · exact hsx h hh hn
      · exact hs hmem
    rw [if_neg (by decide), Holding.recovered_of_not_on he hp hon]
    exact .ret rfl

omit hw hC in
theorem parseOwnerPid_owner (l : Location) : parseOwnerPid (makeGlobalOwner l) = l.nodeId.val := by
  have := l.tid.isLt
  have := l.nodeId.isLt
  rw [parseOwnerPid, makeGlobalOwner, u32]
  omega

/-- The exclusive routines where there is an owner. -/
theorem total_recoverExclusive {slot recursive : Place Mem ℕ} {l : Location}
    (hl : l.nodeId.val < ubMaxNodes) (hget : slot.get m = makeGlobalOwner l)
    {Q : Unit → Mem → Prop}
    (hother : l.nodeId.val ≠ p → Q () (slot.set (makeGlobalOwner l) (slot.set lockInvalidOwner m)))
    (hown : l.nodeId.val = p → Q () (Shm.lockWord.set xLockDecr (recursive.set 0
      (Shm.reserveLockOwner.set lockInvalidOwner (slot.set lockInvalidOwner m))))) :
    Total C Q (recoverExclusive swap slot recursive p) m := by
  have hvalid : slot.get m ≠ lockInvalidOwner := by
    rw [hget]
    exact makeGlobalOwner_ne_invalid hl
  refine .bind (total_tryTakeValidOwner hw hC hvalid ?_)
  rw [hget]
  dsimp only
  rw [parseOwnerPid_owner]
  split_ifs with hp
  · exact total_store hC (hother hp)
  · exact .bind (total_store hC (.bind (total_store hC (total_store hC (hown (not_not.mp hp))))))

omit hw hC in
/-- Nobody holds the lock. -/
theorem word_none : (⟨none, none, ∅⟩ : Holding).word = xLockDecr := by simp [Holding.word]

omit hw hC in
theorem card_le (hv : c.Valid) : c.s.card ≤ 16 := by
  have hsub : c.s ⊆ Finset.range 16 := fun n hn => Finset.mem_range.mpr (hv.s_node n hn)
  simpa using Finset.card_le_card hsub

/-- The exclusive routines where `h` is the only holder, with its owner in `slot`: what they write on
    behalf of `p` is what is left without `p`. -/
theorem total_recover_sole {slot recursive : Place Mem ℕ} {h : Location × ℕ} {u : UbRwLock}
    (hp : p < ubMaxNodes) (hl : h.1.nodeId.val < ubMaxNodes) (he : c.Encodes m.shm)
    (howner : slot.get m = makeGlobalOwner h.1) (hon : c.On p ↔ h.1.nodeId.val = p)
    (hback : slot.set (slot.get m) (slot.set lockInvalidOwner m) = m)
    (hset : Shm.lockWord.set xLockDecr (recursive.set 0 (Shm.reserveLockOwner.set lockInvalidOwner
      (slot.set lockInvalidOwner m))) = { m with shm := u })
    (hu : h.1.nodeId.val = p → u = c.recovered p m.shm) :
    Total C (fun _ m' => m' = { m with shm := c.recovered p m.shm })
      (recoverExclusive swap slot recursive p) m := by
  refine total_recoverExclusive hw hC hl howner (fun hn => ?_) fun hn => ?_
  · rw [← howner, hback, Holding.recovered_of_not_on he hp (mt hon.mp hn)]
  · rw [hset, hu hn]

theorem total_recover_x (hp : p < ubMaxNodes) (hv : c.Valid) (he : c.Encodes m.shm)
    {h : Location × ℕ} (hx : c.x = some h) :
    Total C (fun _ m' => m' = { m with shm := c.recovered p m.shm }) (recoverExclusiveX swap p) m := by
  obtain ⟨hsx, hs⟩ := hv.x_alone (by simp [hx])
  have howner : m.shm.lockOwnerX = makeGlobalOwner h.1 := by rw [he.ownerX, hx]; rfl
  have hon : c.On p ↔ h.1.nodeId.val = p := by simp [Holding.On, hx, hsx, hs]
  refine total_recover_sole hw hC hp (hv.x_node h hx) he howner hon rfl rfl fun hn => ?_
  refine Holding.eq_recovered he hp ?_ rfl (fun _ => rfl) fun hoff => absurd (hon.mpr hn) hoff
  rw [Holding.without, hx, hsx, hs, Holding.keep_some_self hn, Holding.keep_none, Finset.erase_empty]
  exact ⟨word_none.symm, rfl, rfl, he.ownerSx.trans (by rw [hsx]), he.depthSx.trans (by rw [hsx]),
    he.bitmap.trans hs⟩

theorem total_recover_sx (hp : p < ubMaxNodes) (hv : c.Valid) (he : c.Encodes m.shm)
    {h : Location × ℕ} (hx : c.x = none) (hsx : c.sx = some h) (hs : c.s = ∅) :
    Total C (fun _ m' => m' = { m with shm := c.recovered p m.shm }) (recoverExclusiveSx swap p) m := by
  have howner : m.shm.lockOwnerSx = makeGlobalOwner h.1 := by rw [he.ownerSx, hsx]; rfl
  have hon : c.On p ↔ h.1.nodeId.val = p := by simp [Holding.On, hx, hsx, hs]
  refine total_recover_sole hw hC hp (hv.sx_node h hsx) he howner hon rfl rfl fun hn => ?_
  refine Holding.eq_recovered he hp ?_ rfl (fun _ => rfl) fun hoff => absurd (hon.mpr hn) hoff
  rw [Holding.without, hx, hsx, hs, Holding.keep_some_self hn, Holding.keep_none, Finset.erase_empty]
  exact ⟨word_none.symm, he.ownerX.trans (by rw [hx]), he.depthX.trans (by rw [hx]), rfl, rfl,
    he.bitmap.trans hs⟩

omit hw in
theorem total_dropSx {Q : Unit → Mem → Prop} (hQ : Q () { m with shm := dropped m.shm }) :
    Total C Q dropSx { m with shm := { m.shm with lockOwnerSx := lockInvalidOwner } } :=
  .bind (total_store hC (.bind (total_store hC (.bind (total_rmw hC (.ret hQ))))))

omit hw hC in
theorem dropped_lockWord (u : UbRwLock) : (dropped u).lockWord = u.lockWord + xLockHalfDecr := rfl

omit hw hC in
theorem word_dropped {u : UbRwLock} {h : Location × ℕ} (he : c.Encodes u) (hx : c.x = none)
    (hsx : c.sx = some h) : (dropped u).lockWord = (⟨none, none, c.s⟩ : Holding).word := by
  rw [dropped_lockWord, he.word]
  simp only [Holding.word, hx, hsx, Option.isSome_none, Option.isSome_some, Bool.false_eq_true,
    if_false, if_true, xLockHalfDecr, xLockDecr]
  omega

omit hw hC in
theorem encodes_dropped {u : UbRwLock} {h : Location × ℕ} (he : c.Encodes u) (hx : c.x = none)
    (hsx : c.sx = some h) : (⟨none, none, c.s⟩ : Holding).Encodes (dropped u) := by
  have hownerX : (dropped u).lockOwnerX = Holding.owner none := he.ownerX.trans (by rw [hx])
  have hdepthX : (dropped u).xRecursive = Holding.depth none := he.depthX.trans (by rw [hx])
  have hownerSx : (dropped u).lockOwnerSx = Holding.owner none := rfl
  have hdepthSx : (dropped u).sxRecursive = Holding.depth none := rfl
  exact ⟨word_dropped he hx hsx, hownerX, hdepthX, hownerSx, hdepthSx, he.bitmap⟩

omit hw hC in
/-- Once SX is gone, the rest is what it would be without it. -/
theorem recovered_dropped {u : UbRwLock} {h : Location × ℕ}
    (hx : c.x = none) (hsx : c.sx = some h) (hn : h.1.nodeId.val = p) :
    (⟨none, none, c.s⟩ : Holding).recovered p (dropped u) = c.recovered p u := by
  have hon : c.On p := .inr (.inl ⟨h, hsx, hn⟩)
  rw [Holding.recovered, Holding.recovered, Holding.without, Holding.without, hx, hsx,
    Holding.keep_some_self hn, Holding.keep_none, if_pos hon]
  simp only [dropped, ite_self]

/-- SX goes first if it is the failed process's, and S is recovered from what is left. -/
theorem total_recoverSharedSxS (hp : p < ubMaxNodes) (hv : c.Valid) (he : c.Encodes m.shm)
    {h : Location × ℕ} (hx : c.x = none) (hsx : c.sx = some h) :
    Total C (fun _ m' => m' = { m with shm := c.recovered p m.shm }) (recoverSharedSxS swap p) m := by
  have howner : Shm.lockOwnerSx.get m = makeGlobalOwner h.1 := by
    rw [show Shm.lockOwnerSx.get m = m.shm.lockOwnerSx from rfl, he.ownerSx, hsx]
    rfl
  have hvalid : Shm.lockOwnerSx.get m ≠ lockInvalidOwner := by
    rw [howner]
    exact makeGlobalOwner_ne_invalid (hv.sx_node h hsx)
  refine .bind (total_tryTakeValidOwner hw hC hvalid ?_)
  rw [howner]
  dsimp only
  rw [parseOwnerPid_owner]
  split_ifs with hn
  · have hrest : (⟨none, none, c.s⟩ : Holding).Valid := ⟨by simp, by simp, hv.s_node, by simp⟩
    have htail := total_recoverSharedLock hw hC (m := { m with shm := dropped m.shm }) hp hrest rfl
      (by simp) (encodes_dropped he hx hsx)
    rw [recovered_dropped hx hsx hn] at htail
    exact .bind (total_dropSx hC htail)
  · refine .bind (total_store hC ?_)
    have hback : Shm.lockOwnerSx.set (makeGlobalOwner h.1) (Shm.lockOwnerSx.set lockInvalidOwner m)
        = m := by
      rw [← howner]
      rfl
    rw [hback]
    refine total_recoverSharedLock hw hC hp hv hx (fun a ha han => hn ?_) he
    rw [← han, Option.some.inj (hsx.symm.trans ha)]

/-- The holds of node `p` are given up, and no others. -/
theorem total_recoverHolds (hp : p < ubMaxNodes) (hv : c.Valid) (he : c.Encodes m.shm) :
    Total C (fun _ m' => m' = { m with shm := c.recovered p m.shm }) (recoverHolds swap p) m := by
  refine .bind (total_load hC ?_)
  have hget : Shm.lockWord.get m = c.word := he.word
  have hle := card_le hv
  rw [hget]
  cases hx : c.x with
  | some h =>
    have hword : c.word = 0 := by simp [Holding.word, hx]
    rw [if_pos hword]
    exact total_recover_x hw hC hp hv he hx
  | none =>
    cases hsx : c.sx with
    | some h =>
      have hword : c.word = 32768 - c.s.card := by simp [Holding.word, hx, hsx, xLockHalfDecr]
      rw [if_neg (by omega)]
      rcases Finset.eq_empty_or_nonempty c.s with hs | hs
      · rw [if_pos (by simp [hword, hs, xLockHalfDecr])]
        exact total_recover_sx hw hC hp hv he hx hsx hs
      · have hpos := Finset.card_pos.mpr hs
        rw [if_neg (by unfold xLockHalfDecr; omega), if_pos (by unfold xLockHalfDecr; omega)]
        exact total_recoverSharedSxS hw hC hp hv he hx hsx
    | none =>
      have hword : c.word = 65536 - c.s.card := by simp [Holding.word, hx, hsx, xLockDecr]
      rw [if_neg (by omega), if_neg (by unfold xLockHalfDecr; omega),
        if_neg (by unfold xLockHalfDecr; omega)]
      split_ifs with hshared
      · exact total_recoverSharedLock hw hC hp hv hx (by simp [hsx]) he
      · have hs : c.s = ∅ := by
          rw [← Finset.card_eq_zero]
          unfold xLockHalfDecr xLockDecr at hshared
          omega
        have hon : ¬ c.On p := by simp [Holding.On, hx, hsx, hs]
        rw [Holding.recovered_of_not_on he hp hon]
        exact .ret rfl

end Routines

end Recover

end UbsAtomic
