import UbsAtomic.Conc.Trace
import UbsAtomic.Ring.Billboard

/-! Where the rings of a node lie in its region (`check_memory_capacity`, `create_local_rings`).

        region  ├ pad ┼ lock ring ┼ ring of desc 0 ┼ ring of desc 1 ┼ … ┤ … ┤
                0     └─ out_offsets[0]            └─ out_offsets[p]    ▲   ▲
                                                              total_needed  size of the region

    One function adds up what the rings need and compares it with the size of the region, the other
    one places them. Both compute on 64 bits; the receive buffer of the dispatcher is sized on 32.
    Placing a ring writes its first and last byte, its header and the head of every entry, so rings
    that are placed lie where the process may write. -/

namespace UbsAtomic

namespace Regions

open Layout (RingDesc billboardSize)

open Billboard (cachelineSize entryHeaderSize dataOffset lockRingCapacity
  lockRingMsgSize eexist)

open UbsAtomic.Ring (u64 u64Sub u64_lt eInval maxPriorityLevels lockRingPriority)

def enomem : ℤ := -12

/-- `sizeof(message_t)`. -/
def messageSize : ℕ := 24

/-! ### The code -/

/-- `entry_stride_`, with `size_t` of 64 bits. -/
def entryStride (maxMsgSize : ℕ) : ℕ :=
  let raw := u64 (entryHeaderSize + maxMsgSize)
  if raw % cachelineSize ≠ 0 then u64 (raw + (cachelineSize - raw % cachelineSize)) else raw

/-- `CalculateMemorySize`. -/
def calculateMemorySize (capacity maxMsgSize : ℕ) : ℕ :=
  u64 (dataOffset + u64 (entryStride maxMsgSize * capacity))

/-- What it takes to get from an address to the next cache line. -/
def padding (addr : ℕ) : ℕ := (cachelineSize - addr % cachelineSize) % cachelineSize

/-- `total_needed` and `curr_addr`. -/
structure Needs where
  total : ℕ
  addr : ℕ

/-- One more ring. -/
def Needs.add (n : Needs) (capacity maxMsgSize : ℕ) : Needs :=
  let more := u64 (padding n.addr + calculateMemorySize capacity maxMsgSize)
  ⟨u64 (n.total + more), u64 (n.addr + more)⟩

/-- The descriptors that `check_memory_capacity` lets pass. -/
def descOk (d : RingDesc) : Bool :=
  d.priority.toNat ≠ 0 ∧ d.priority.toNat < maxPriorityLevels ∧ d.ringCapacity ≠ 0 ∧
    d.ringCapacity &&& (d.ringCapacity - 1) = 0 ∧ messageSize ≤ d.maxMsgSize

/-- The loop over the user's rings; `none` is `-EINVAL`. -/
def addUserRings : List RingDesc → Needs → Option Needs
  | [], n => some n
  | d :: ds, n => if descOk d then addUserRings ds (n.add d.ringCapacity d.maxMsgSize) else none

/-- `check_memory_capacity`, for a billboard area and a region of the given sizes. -/
def checkMemoryCapacity (areaSize limit base : ℕ) (descs : List RingDesc) : ℤ :=
  if areaSize < billboardSize then eInval
  else
    match addUserRings descs ((Needs.mk 0 base).add lockRingCapacity lockRingMsgSize) with
    | none => eInval
    | some n => if limit < n.total then enomem else 0

/-- A ring that was constructed. -/
structure Placed where
  priority : ℕ
  capacity : ℕ
  maxMsgSize : ℕ
  addr : ℕ

/-- What is written before the constructor looks at the capacity: the first and the last byte, and
    the members of its initialiser list. -/
def Placed.probed (p : Placed) : List ℕ :=
  u64Sub (u64 (p.addr + calculateMemorySize p.capacity p.maxMsgSize)) 1 ::
    [0, 64, 80, 88, 104, 128, 136, 144, 152].map fun i => u64 (p.addr + i)

/-- `get_entry`. -/
def Placed.entry (p : Placed) (i : ℕ) : ℕ := u64 (p.addr + dataOffset + i * entryStride p.maxMsgSize)

/-- What is written afterwards: `index_mask_`, `entry_stride_` and every `ready_seq`. -/
def Placed.cleared (p : Placed) : List ℕ :=
  u64 (p.addr + 96) :: u64 (p.addr + 72) :: (List.range p.capacity).map p.entry

/-- `current_mem_addr`, the rings in the order of `local_active_priorities_`, `out_offsets` and
    `max_msg_size_global_`. -/
structure Local where
  addr : ℕ
  rings : List Placed
  outOffsets : List ℕ
  maxMsgSizeGlobal : ℕ

/-- A call may return a code, throw, or end the process with a store that is not allowed. -/
inductive Failure where
  | returned (code : ℤ)
  | thrown
  | faulted
  deriving DecidableEq

/-- The next ring, on the next cache line. -/
def Local.next (l : Local) (priority capacity maxMsgSize : ℕ) : Placed :=
  ⟨priority, capacity, maxMsgSize, u64 (l.addr + padding l.addr)⟩

/-- One ring is noted. -/
def Local.place (base : ℕ) (l : Local) (priority capacity maxMsgSize : ℕ) : Local :=
  let addr := u64 (l.addr + padding l.addr)
  { addr := u64 (addr + calculateMemorySize capacity maxMsgSize)
    rings := l.rings ++ [⟨priority, capacity, maxMsgSize, addr⟩]
    outOffsets := l.outOffsets.set priority (u64Sub addr base)
    maxMsgSizeGlobal :=
      if maxMsgSize > l.maxMsgSizeGlobal then maxMsgSize else l.maxMsgSizeGlobal }

section Create

-- whether a store that begins at an address goes through; all stores here are aligned
variable (writable : ℕ → Bool) (base : ℕ)

/-- One ring is probed, constructed and noted; the constructor throws if the capacity is no power of
    two. -/
def Local.construct (l : Local) (priority capacity maxMsgSize : ℕ) : Except Failure Local :=
  let ring := l.next priority capacity maxMsgSize
  if !ring.probed.all writable then .error .faulted
  else if capacity = 0 ∨ capacity &&& (capacity - 1) ≠ 0 then .error .thrown
  else if !ring.cleared.all writable then .error .faulted
  else .ok (l.place base priority capacity maxMsgSize)

/-- The loop over the user's rings. -/
def placeUserRings : List RingDesc → Local → Except Failure Local
  | [], l => .ok l
  | d :: ds, l =>
    if d.priority.toNat = 0 then .error (.returned eInval)
    else if d.priority.toNat ≥ maxPriorityLevels then .error (.returned eInval)
    else if (l.rings.map Placed.priority).contains d.priority.toNat then .error (.returned eexist)
    else do
      let l ← l.construct writable base d.priority.toNat d.ringCapacity d.maxMsgSize
      placeUserRings ds l

/-- `create_local_rings` of a transport that has no rings yet. -/
def createLocalRings (outOffsets : List ℕ) (descs : List RingDesc) : Except Failure Local :=
  if outOffsets.length < maxPriorityLevels then .error (.returned eInval)
  else do
    let l ← Local.construct writable base ⟨base, [], outOffsets, 0⟩ lockRingPriority
      lockRingCapacity lockRingMsgSize
    let l ← placeUserRings writable base descs l
    return { l with maxMsgSizeGlobal := u32 (l.maxMsgSizeGlobal + (16 + 64)) }

end Create

/-! ### What the layout should be -/

/-- The bytes of the ring, as a number: header and slots. -/
def Placed.bytes (p : Placed) : ℕ := Billboard.ringBytes p.capacity p.maxMsgSize

/-- The ring is no longer than its descriptor can say. -/
structure Placed.Sized (p : Placed) : Prop where
  capacity : p.capacity ≤ 2147483648
  maxMsgSize : p.maxMsgSize < 4294967296

/-- The addresses from `start` on, `length` of them. -/
structure Span where
  start : ℕ
  length : ℕ

/-- One ends before the other begins. -/
def Span.Apart (a b : Span) : Prop := a.start + a.length ≤ b.start ∨ b.start + b.length ≤ a.start

/-- Where the ring lies in a region that begins at `base`. -/
def Placed.span (base : ℕ) (p : Placed) : Span := ⟨u64Sub p.addr base, p.bytes⟩

/-- The rings of `descs` and the lock ring are in the region, and everybody is told the truth. -/
structure Sound (base limit : ℕ) (descs : List RingDesc) (l : Local) : Prop where
  all : l.rings.map (fun p => (p.priority, p.capacity, p.maxMsgSize)) =
    (lockRingPriority, lockRingCapacity, lockRingMsgSize) ::
      descs.map fun d => (d.priority.toNat, d.ringCapacity, d.maxMsgSize)
  aligned : ∀ p ∈ l.rings, p.addr % 64 = 0
  apart : (l.rings.map (Placed.span base)).Pairwise Span.Apart
  inside : ∀ p ∈ l.rings, u64Sub p.addr base + p.bytes ≤ limit
  offsets : ∀ p ∈ l.rings, l.outOffsets[p.priority]? = some (u64Sub p.addr base)
  buffer : ∀ p ∈ l.rings, p.maxMsgSize ≤ l.maxMsgSizeGlobal

/-- What the rings need, as a number. -/
def needed (base : ℕ) (descs : List RingDesc) : ℕ :=
  padding base + Billboard.ringBytes lockRingCapacity lockRingMsgSize
    + (descs.map fun d => Billboard.ringBytes d.ringCapacity d.maxMsgSize).sum

/-! ### Sizes -/

/-- A ring takes whole cache lines. -/
theorem bytes_mod (capacity maxMsgSize : ℕ) :
    Billboard.ringBytes capacity maxMsgSize % 64 = 0 := by
  have hlines : ∀ single, single % 64 = 0 → (192 + single * capacity) % 64 = 0 := by
    intro single hs
    rw [Nat.add_mod, Nat.mul_mod, hs]
    simp
  refine hlines _ ?_
  unfold cachelineSize entryHeaderSize
  split
  · omega
  · omega

/-- The stride is that of the ring as it is counted, at least a line and little above `2^32`. -/
theorem entryStride_eq {maxMsgSize : ℕ} (hm : maxMsgSize < 4294967296) (capacity : ℕ) :
    Billboard.ringBytes capacity maxMsgSize = 192 + entryStride maxMsgSize * capacity ∧
      64 ≤ entryStride maxMsgSize ∧ entryStride maxMsgSize ≤ 4294967367 := by
  have hraw : u64 (entryHeaderSize + maxMsgSize) = entryHeaderSize + maxMsgSize := by
    rw [u64, Nat.mod_eq_of_lt]
    unfold entryHeaderSize
    omega
  simp only [entryStride, Billboard.ringBytes, hraw]
  unfold cachelineSize entryHeaderSize dataOffset
  split
  · have hsingle : u64 (8 + maxMsgSize + (64 - (8 + maxMsgSize) % 64)) =
        8 + maxMsgSize + (64 - (8 + maxMsgSize) % 64) := by
      rw [u64, Nat.mod_eq_of_lt (by omega)]
    rw [hsingle]
    exact ⟨rfl, by omega, by omega⟩
  · exact ⟨rfl, by omega, by omega⟩

/-- No offset in a single ring is too long for 64 bits. -/
theorem offset_eq {maxMsgSize i : ℕ} (hm : maxMsgSize < 4294967296) (hi : i ≤ 2147483648) :
    u64 (dataOffset + u64 (entryStride maxMsgSize * i)) = 192 + entryStride maxMsgSize * i := by
  have hmul := Nat.mul_le_mul (entryStride_eq hm i).2.2 hi
  unfold dataOffset u64
  rw [Nat.mod_eq_of_lt (by omega : entryStride maxMsgSize * i < 18446744073709551616),
    Nat.mod_eq_of_lt (by omega)]

theorem calculateMemorySize_eq {capacity maxMsgSize : ℕ} (hc : capacity ≤ 2147483648)
    (hm : maxMsgSize < 4294967296) :
    calculateMemorySize capacity maxMsgSize = Billboard.ringBytes capacity maxMsgSize :=
  (offset_eq hm hc).trans (entryStride_eq hm capacity).1.symm

/-- The test for a power of two: the highest bit is the only one. -/
theorem pow_log2 {c : ℕ} (hc : c ≠ 0) (hpow : c &&& (c - 1) = 0) : 2 ^ c.log2 = c := by
  by_contra hne
  have hle := Nat.log2_self_le hc
  have hlt : c < 2 ^ (c.log2 + 1) := Nat.lt_log2_self
  have hbit : ∀ x, 2 ^ c.log2 ≤ x → x < 2 ^ (c.log2 + 1) → x.testBit c.log2 = true := fun x h h' =>
    Nat.testBit_of_two_pow_le_and_two_pow_add_one_gt h h'
  have hand : (c &&& (c - 1)).testBit c.log2 = true := by
    rw [Nat.testBit_and, hbit c hle hlt, hbit (c - 1) (by omega) (by omega)]
    rfl
  rw [hpow] at hand
  simp at hand

/-- A power of two below `2^32` is at most `2^31`. -/
theorem capacity_le {c : ℕ} (hc : c < 4294967296) (hzero : c ≠ 0) (hpow : c &&& (c - 1) = 0) :
    c ≤ 2147483648 := by
  have hc' := pow_log2 hzero hpow
  have hlog : c.log2 < 32 := (Nat.pow_lt_pow_iff_right (by norm_num : 1 < 2)).mp (by omega)
  have hle : 2 ^ c.log2 ≤ 2 ^ 31 := Nat.pow_le_pow_right (by norm_num) (by omega)
  omega

/-! ### Where the rings may be -/

section Stores

variable {writable : ℕ → Bool} {base a : ℕ} {p : Placed}

/-- The ring can be constructed. -/
structure Allowed (writable : ℕ → Bool) (p : Placed) : Prop where
  probed : ∀ x ∈ p.probed, writable x = true
  cleared : ∀ x ∈ p.cleared, writable x = true
  capacity : p.capacity ≠ 0 ∧ p.capacity &&& (p.capacity - 1) = 0

theorem construct_eq_ok {l l' : Local} {priority capacity maxMsgSize : ℕ} :
    l.construct writable base priority capacity maxMsgSize = .ok l' ↔
      Allowed writable (l.next priority capacity maxMsgSize) ∧
        l.place base priority capacity maxMsgSize = l' := by
  simp only [Local.construct]
  constructor
  · intro h
    split_ifs at h with h₁ h₂ h₃
    cases h
    exact ⟨⟨by simpa using h₁, by simpa using h₃, by simpa [Local.next, not_or] using h₂⟩, rfl⟩
  · rintro ⟨h, rfl⟩
    have hprobed := List.all_eq_true.mpr h.probed
    have hcleared := List.all_eq_true.mpr h.cleared
    have hcapacity : ¬ (capacity = 0 ∨ capacity &&& (capacity - 1) ≠ 0) := by
      simpa [Local.next, not_or] using h.capacity
    simp [hprobed, hcleared, hcapacity]

theorem ok_of_bind {ε α β : Type} {c : Except ε α} {f : α → Except ε β} {x : β}
    (h : c >>= f = .ok x) : ∃ y, c = .ok y ∧ f y = .ok x := by
  cases c with
  | error e => cases h
  | ok y => exact ⟨y, rfl, h⟩

/-- From every byte of a ring the next store is less than a stride away. -/
theorem Allowed.near (h : Allowed writable p) (hm : p.maxMsgSize < 4294967296)
    (hc : p.capacity ≤ 2147483648) (haddr : p.addr = u64 (base + a)) {y : ℕ} (hy : y < p.bytes) :
    ∃ t, y ≤ t ∧ t ≤ y + 4294967367 ∧ writable (u64 (base + (a + t))) = true := by
  obtain ⟨hbytes, hlow, hhigh⟩ := entryStride_eq hm p.capacity
  have hbytes : p.bytes = 192 + entryStride p.maxMsgSize * p.capacity := hbytes
  have hentry : ∀ i < p.capacity,
      writable (u64 (base + (a + (192 + i * entryStride p.maxMsgSize)))) = true := by
    intro i hi
    have hi : p.entry i ∈ p.cleared := by
      simp only [Placed.cleared, List.mem_cons, List.mem_map, List.mem_range]
      exact .inr (.inr ⟨i, hi, rfl⟩)
    have heq : u64 (base + (a + (192 + i * entryStride p.maxMsgSize))) = p.entry i := by
      unfold Placed.entry u64 dataOffset
      rw [haddr, u64]
      omega
    exact heq ▸ h.cleared _ hi
  have hlast : writable (u64 (base + (a + (p.bytes - 1)))) = true := by
    have heq : u64 (base + (a + (p.bytes - 1))) =
        u64Sub (u64 (p.addr + calculateMemorySize p.capacity p.maxMsgSize)) 1 := by
      rw [calculateMemorySize_eq hc hm, haddr, ← Placed.bytes]
      unfold u64Sub u64
      omega
    exact heq ▸ h.probed _ List.mem_cons_self
  have hpos := Nat.pos_of_ne_zero h.capacity.1
  generalize entryStride p.maxMsgSize = s at hbytes hlow hhigh hentry
  by_cases hfirst : y ≤ 192
  · exact ⟨192 + 0 * s, by omega, by omega, hentry 0 hpos⟩
  -- the entry after the one with the byte, or the end of the ring
  have hdiv := Nat.div_add_mod (y - 192) s
  have hmod := Nat.mod_lt (y - 192) (show 0 < s by omega)
  generalize (y - 192) / s = k at hdiv
  have hsucc : s * (k + 1) = s * k + s := Nat.mul_succ s k
  by_cases hk : k + 1 < p.capacity
  · exact ⟨192 + (k + 1) * s, by rw [Nat.mul_comm]; omega, by rw [Nat.mul_comm]; omega, hentry _ hk⟩
  · have hle : s * p.capacity ≤ s * (k + 1) := Nat.mul_le_mul_left s (by omega)
    exact ⟨p.bytes - 1, by omega, by omega, hlast⟩

end Stores

/-! ### One ring after the other -/

/-- The rings fill the region from offset `a` to offset `b`. -/
def Stacked (base : ℕ) : List Placed → ℕ → ℕ → Prop
  | [], a, b => a = b
  | p :: ps, a, b => p.addr = u64 (base + a) ∧ Stacked base ps (a + p.bytes) b

variable {writable : ℕ → Bool} {base : ℕ} {ps : List Placed} {p : Placed} {a b : ℕ}

theorem Stacked.concat (h : Stacked base ps a b) (hp : p.addr = u64 (base + b)) :
    Stacked base (ps ++ [p]) a (b + p.bytes) := by
  induction ps generalizing a with
  | nil =>
    obtain rfl : a = b := h
    exact ⟨hp, rfl⟩
  | cons q ps ih => exact ⟨h.1, ih h.2⟩

theorem Stacked.sum_bytes (h : Stacked base ps a b) : a + (ps.map Placed.bytes).sum = b := by
  induction ps generalizing a with
  | nil => exact h
  | cons p ps ih =>
    rw [List.map_cons, List.sum_cons, ← Nat.add_assoc]
    exact ih h.2

/-- An address is as far from the base as it was put. -/
theorem u64Sub_addr (hbase : base < 18446744073709551616) (ha : a < 18446744073709551616) :
    u64Sub (u64 (base + a)) base = a := by
  unfold u64Sub u64
  omega

/-- The facts about the place of each ring, as long as the rings do not go round 64 bits. -/
theorem Stacked.each (h : Stacked base ps a b) (hbase : base < 18446744073709551616)
    (hb : b < 18446744073709551616) (haligned : (base + a) % 64 = 0) :
    ∀ p ∈ ps, p.addr % 64 = 0 ∧ a ≤ u64Sub p.addr base ∧ u64Sub p.addr base + p.bytes ≤ b := by
  induction ps generalizing a with
  | nil => simp
  | cons q ps ih =>
    have hsum := h.2.sum_bytes
    have hnext : (base + (a + q.bytes)) % 64 = 0 := by
      have : q.bytes % 64 = 0 := bytes_mod _ _
      omega
    intro p hp
    rcases List.mem_cons.mp hp with rfl | hp
    · rw [h.1, u64Sub_addr hbase (by omega)]
      refine ⟨?_, le_rfl, by omega⟩
      unfold u64
      omega
    · obtain ⟨h₁, h₂, h₃⟩ := ih h.2 hnext p hp
      exact ⟨h₁, by omega, h₃⟩

theorem Stacked.apart (h : Stacked base ps a b) (hbase : base < 18446744073709551616)
    (hb : b < 18446744073709551616) (haligned : (base + a) % 64 = 0) :
    (ps.map (Placed.span base)).Pairwise Span.Apart := by
  induction ps generalizing a with
  | nil => exact List.Pairwise.nil
  | cons q ps ih =>
    have hsum := h.2.sum_bytes
    have hnext : (base + (a + q.bytes)) % 64 = 0 := by
      have : q.bytes % 64 = 0 := bytes_mod _ _
      omega
    refine List.pairwise_cons.mpr ⟨?_, ih h.2 hnext⟩
    intro s hs
    obtain ⟨p, hp, rfl⟩ := List.mem_map.mp hs
    refine .inl ?_
    show u64Sub q.addr base + q.bytes ≤ u64Sub p.addr base
    rw [h.1, u64Sub_addr hbase (by omega)]
    exact (h.2.each hbase hb hnext p hp).2.1

/-- Along rings that were constructed the next store is never far. -/
theorem Stacked.near (h : Stacked base ps a b)
    (hps : ∀ p ∈ ps, p.Sized ∧ Allowed writable p) {x : ℕ} (ha : a ≤ x) (hb : x < b) :
    ∃ t, x ≤ t ∧ t ≤ x + 4294967367 ∧ writable (u64 (base + t)) = true := by
  induction ps generalizing a with
  | nil =>
    obtain rfl : a = b := h
    omega
  | cons p ps ih =>
    by_cases hx : x < a + p.bytes
    · obtain ⟨hsized, hallowed⟩ := hps p List.mem_cons_self
      obtain ⟨t, hle, hnear, hw⟩ := hallowed.near hsized.maxMsgSize hsized.capacity h.1
        (show x - a < p.bytes by omega)
      exact ⟨a + t, by omega, by omega, hw⟩
    · exact ih h.2 (fun q hq => hps q (List.mem_cons_of_mem p hq)) (by omega)

/-! ### The loops -/

/-- The descriptor of a ring that can be placed. -/
structure Placeable (d : RingDesc) : Prop where
  capacity : d.ringCapacity ≤ 2147483648
  maxMsgSize : d.maxMsgSize < 4294967296

/-- `create_local_rings` after some rings, which end at offset `b`. -/
structure Built (writable : ℕ → Bool) (base : ℕ) (l : Local) (b : ℕ) : Prop where
  addr : l.addr = u64 (base + b)
  aligned : (base + b) % 64 = 0
  stacked : Stacked base l.rings (padding base) b
  nodup : (l.rings.map Placed.priority).Nodup
  length : maxPriorityLevels ≤ l.outOffsets.length
  priority : ∀ p ∈ l.rings, p.priority < maxPriorityLevels
  offsets : ∀ p ∈ l.rings, l.outOffsets[p.priority]? = some (u64Sub p.addr base)
  buffer : ∀ p ∈ l.rings, p.maxMsgSize ≤ l.maxMsgSizeGlobal
  reached : ∃ p ∈ l.rings, p.maxMsgSize = l.maxMsgSizeGlobal
  rings : ∀ p ∈ l.rings, p.Sized ∧ Allowed writable p

theorem padding_of_mod {addr : ℕ} (h : addr % 64 = 0) : padding addr = 0 := by
  unfold padding cachelineSize
  omega

theorem u64_mod (n : ℕ) : u64 n % 64 = n % 64 := by
  unfold u64
  omega

/-- The next ring needs no padding. -/
theorem Built.next {l : Local} (h : Built writable base l b) :
    u64 (l.addr + padding l.addr) = u64 (base + b) := by
  rw [h.addr, padding_of_mod (by rw [u64_mod]; exact h.aligned)]
  unfold u64
  omega

theorem Built.place {l : Local} (h : Built writable base l b) {d : RingDesc} (hd : Placeable d)
    (hprio : d.priority.toNat < maxPriorityLevels)
    (hnew : d.priority.toNat ∉ l.rings.map Placed.priority)
    (hallowed : Allowed writable (l.next d.priority.toNat d.ringCapacity d.maxMsgSize)) :
    Built writable base (l.place base d.priority.toNat d.ringCapacity d.maxMsgSize)
      (b + Billboard.ringBytes d.ringCapacity d.maxMsgSize) := by
  rw [Local.next, h.next] at hallowed
  have hsize := bytes_mod d.ringCapacity d.maxMsgSize
  have hmem : ∀ p ∈ l.rings ++ [⟨d.priority.toNat, d.ringCapacity, d.maxMsgSize, u64 (base + b)⟩],
      p ∈ l.rings ∨ p = ⟨d.priority.toNat, d.ringCapacity, d.maxMsgSize, u64 (base + b)⟩ := by
    simp
  unfold Local.place
  rw [h.next, calculateMemorySize_eq hd.capacity hd.maxMsgSize]
  have haligned := h.aligned
  refine ⟨?_, by omega, h.stacked.concat rfl, ?_, ?_, ?_, ?_, ?_, ?_, ?_⟩
  · dsimp only
    unfold u64
    omega
  · rw [List.map_append, List.nodup_append]
    refine ⟨h.nodup, by simp, ?_⟩
    rintro x hx y hy rfl
    obtain rfl : x = d.priority.toNat := by simpa using hy
    exact hnew hx
  · rw [List.length_set]
    exact h.length
  · intro p hp
    rcases hmem p hp with hp | rfl
    · exact h.priority p hp
    · exact hprio
  · intro p hp
    rcases hmem p hp with hp | rfl
    · rw [List.getElem?_set_ne]
      · exact h.offsets p hp
      · rintro heq
        exact hnew (List.mem_map.mpr ⟨p, hp, heq.symm⟩)
    · exact List.getElem?_set_self (hprio.trans_le h.length)
  · intro p hp
    dsimp only
    rcases hmem p hp with hp | rfl
    · have := h.buffer p hp
      split_ifs
      · omega
      · omega
    · split_ifs with hgt
      · exact le_rfl
      · exact Nat.le_of_not_lt hgt
  · dsimp only
    split_ifs
    · exact ⟨_, List.mem_append_right _ (List.mem_singleton_self _), rfl⟩
    · obtain ⟨p, hp, hmax⟩ := h.reached
      exact ⟨p, List.mem_append_left _ hp, hmax⟩
  · intro p hp
    rcases hmem p hp with hp | rfl
    · exact h.rings p hp
    · exact ⟨⟨hd.capacity, hd.maxMsgSize⟩, hallowed⟩

/-- The bytes of the rings of some descriptors. -/
def userBytes (ds : List RingDesc) : ℕ :=
  (ds.map fun d => Billboard.ringBytes d.ringCapacity d.maxMsgSize).sum

/-- What the rings are constructed with. -/
def Placed.shape (p : Placed) : ℕ × ℕ × ℕ := (p.priority, p.capacity, p.maxMsgSize)

/-- A user ring that was constructed: its priority is a new one. -/
theorem placeUserRings_cons {l l' : Local} {d : RingDesc} {ds : List RingDesc}
    (h : placeUserRings writable base (d :: ds) l = .ok l') :
    d.priority.toNat ≠ 0 ∧ d.priority.toNat < maxPriorityLevels ∧
      d.priority.toNat ∉ l.rings.map Placed.priority ∧
      Allowed writable (l.next d.priority.toNat d.ringCapacity d.maxMsgSize) ∧
      placeUserRings writable base ds
        (l.place base d.priority.toNat d.ringCapacity d.maxMsgSize) = .ok l' := by
  rw [placeUserRings] at h
  split_ifs at h with h₁ h₂ h₃
  obtain ⟨l₁, hl₁, h⟩ := ok_of_bind h
  obtain ⟨hallowed, rfl⟩ := construct_eq_ok.mp hl₁
  exact ⟨h₁, by omega, by simpa using h₃, hallowed, h⟩

theorem Built.userRings {l l' : Local} {ds : List RingDesc} (h : Built writable base l b)
    (hds : ∀ d ∈ ds, Placeable d) (hl' : placeUserRings writable base ds l = .ok l') :
    Built writable base l' (b + userBytes ds) ∧ l'.rings.map Placed.shape =
      l.rings.map Placed.shape ++ ds.map fun d => (d.priority.toNat, d.ringCapacity, d.maxMsgSize) := by
  induction ds generalizing l b with
  | nil =>
    cases hl'
    simpa [userBytes] using h
  | cons d ds ih =>
    obtain ⟨-, hprio, hnew, hallowed, hl'⟩ := placeUserRings_cons hl'
    have hplace := h.place (hds d List.mem_cons_self) hprio hnew hallowed
    obtain ⟨hbuilt, hshape⟩ := ih hplace (fun d' hd' => hds d' (List.mem_cons_of_mem d hd')) hl'
    refine ⟨?_, ?_⟩
    · rwa [Nat.add_assoc] at hbuilt
    · rw [hshape]
      simp [Local.place, Placed.shape]

/-- `check_memory_capacity` after the rings that end at offset `b`. -/
structure Counted (base : ℕ) (n : Needs) (b : ℕ) : Prop where
  total : n.total = u64 b
  addr : n.addr = u64 (base + b)
  aligned : (base + b) % 64 = 0

theorem Counted.userRings {n n' : Needs} {ds : List RingDesc} (h : Counted base n b)
    (hds : ∀ d ∈ ds, d.ringCapacity < 4294967296 ∧ d.maxMsgSize < 4294967296)
    (hn' : addUserRings ds n = some n') :
    n'.total = u64 (b + userBytes ds) ∧ ∀ d ∈ ds, Placeable d := by
  induction ds generalizing n b with
  | nil =>
    cases hn'
    simpa [userBytes] using h.total
  | cons d ds ih =>
    rw [addUserRings] at hn'
    split_ifs at hn' with hok
    obtain ⟨hc, hm⟩ := hds d List.mem_cons_self
    have hd : Placeable d := by
      simp only [descOk, decide_eq_true_eq] at hok
      exact ⟨capacity_le hc hok.2.2.1 hok.2.2.2.1, hm⟩
    have hsize := bytes_mod d.ringCapacity d.maxMsgSize
    have hadd : Counted base (n.add d.ringCapacity d.maxMsgSize)
        (b + Billboard.ringBytes d.ringCapacity d.maxMsgSize) := by
      have haligned := h.aligned
      unfold Needs.add
      rw [h.total, h.addr, padding_of_mod (by rw [u64_mod]; exact haligned),
        calculateMemorySize_eq hd.capacity hd.maxMsgSize]
      refine ⟨?_, ?_, by omega⟩
      · dsimp only
        unfold u64
        omega
      · dsimp only
        unfold u64
        omega
    obtain ⟨htotal, hrest⟩ := ih hadd (fun d' hd' => hds d' (List.mem_cons_of_mem d hd')) hn'
    refine ⟨?_, fun d' hd' => ?_⟩
    · rwa [Nat.add_assoc] at htotal
    · rcases List.mem_cons.mp hd' with rfl | hd'
      · exact hd
      · exact hrest d' hd'

/-! ### The lock ring -/

/-- What the lock ring ends with. -/
def lockEnd (base : ℕ) : ℕ :=
  padding base + Billboard.ringBytes lockRingCapacity lockRingMsgSize

theorem lockEnd_aligned (base : ℕ) : (base + lockEnd base) % 64 = 0 := by
  have hsize := bytes_mod lockRingCapacity lockRingMsgSize
  unfold lockEnd padding cachelineSize
  omega

theorem calculateMemorySize_lock : calculateMemorySize lockRingCapacity lockRingMsgSize =
    Billboard.ringBytes lockRingCapacity lockRingMsgSize :=
  calculateMemorySize_eq (by decide) (by decide)

theorem counted_lock : Counted base ((Needs.mk 0 base).add lockRingCapacity lockRingMsgSize)
    (lockEnd base) := by
  unfold Needs.add
  rw [calculateMemorySize_lock]
  refine ⟨?_, ?_, lockEnd_aligned base⟩
  · dsimp only
    unfold u64 lockEnd
    omega
  · dsimp only
    unfold u64 lockEnd
    omega

theorem built_lock {out : List ℕ} (hout : maxPriorityLevels ≤ out.length)
    (hallowed : Allowed writable
      (Local.next ⟨base, [], out, 0⟩ lockRingPriority lockRingCapacity lockRingMsgSize)) :
    Built writable base
      (Local.place base ⟨base, [], out, 0⟩ lockRingPriority lockRingCapacity lockRingMsgSize)
      (lockEnd base) := by
  unfold Local.place
  rw [calculateMemorySize_lock]
  refine ⟨?_, lockEnd_aligned base, ⟨rfl, rfl⟩, List.nodup_singleton _, ?_, ?_, ?_, ?_, ?_, ?_⟩
  · dsimp only
    unfold u64 lockEnd
    omega
  · rw [List.length_set]
    exact hout
  · intro p hp
    obtain rfl := List.mem_singleton.mp hp
    have hprio : lockRingPriority < maxPriorityLevels := by decide
    exact hprio
  · intro p hp
    obtain rfl := List.mem_singleton.mp hp
    exact List.getElem?_set_self (Nat.lt_of_lt_of_le (by decide) hout)
  · intro p hp
    obtain rfl := List.mem_singleton.mp hp
    exact le_rfl
  · exact ⟨_, List.mem_singleton_self _, rfl⟩
  · intro p hp
    obtain rfl := List.mem_singleton.mp hp
    have hsized : lockRingCapacity ≤ 2147483648 ∧ lockRingMsgSize < 4294967296 := by decide
    exact ⟨⟨hsized.1, hsized.2⟩, hallowed⟩

/-! ### The layout -/

/-- `max_msg_size_global_` gets its spare bytes. -/
def Local.withSpare (l : Local) : Local :=
  { l with maxMsgSizeGlobal := u32 (l.maxMsgSizeGlobal + (16 + 64)) }

/-- What the two functions have computed when both accept. -/
theorem built_of_accepted {areaSize limit : ℕ} {out : List ℕ} {descs : List RingDesc} {l : Local}
    (hdescs : ∀ d ∈ descs, d.ringCapacity < 4294967296 ∧ d.maxMsgSize < 4294967296)
    (hcheck : checkMemoryCapacity areaSize limit base descs = 0)
    (hcreate : createLocalRings writable base out descs = .ok l) :
    u64 (needed base descs) ≤ limit ∧ ∃ l₀, l = l₀.withSpare ∧
      Built writable base l₀ (needed base descs) ∧
      l₀.rings.map Placed.shape = (lockRingPriority, lockRingCapacity, lockRingMsgSize) ::
        descs.map fun d => (d.priority.toNat, d.ringCapacity, d.maxMsgSize) := by
  rw [checkMemoryCapacity] at hcheck
  rw [createLocalRings] at hcreate
  split_ifs at hcheck
  · cases hcheck
  split_ifs at hcreate with hout
  split at hcheck
  · cases hcheck
  rename_i n hn
  split_ifs at hcheck with hlt
  · cases hcheck
  obtain ⟨htotal, hplaceable⟩ := counted_lock.userRings hdescs hn
  obtain ⟨l₁, hl₁, hcreate⟩ := ok_of_bind hcreate
  obtain ⟨hallowed, rfl⟩ := construct_eq_ok.mp hl₁
  obtain ⟨l₀, hl₀, hcreate⟩ := ok_of_bind hcreate
  cases hcreate
  obtain ⟨hbuilt, hshape⟩ :=
    (built_lock (Nat.le_of_not_lt hout) hallowed).userRings hplaceable hl₀
  have htotal : n.total = u64 (needed base descs) := htotal
  exact ⟨by omega, l₀, rfl, hbuilt, hshape⟩

theorem mem_shape {l : Local} {descs : List RingDesc}
    (hshape : l.rings.map Placed.shape = (lockRingPriority, lockRingCapacity, lockRingMsgSize) ::
      descs.map fun d => (d.priority.toNat, d.ringCapacity, d.maxMsgSize)) {p : Placed}
    (hp : p ∈ l.rings) : p.maxMsgSize = lockRingMsgSize ∨ ∃ d ∈ descs, p.maxMsgSize = d.maxMsgSize := by
  have hmem : p.shape ∈ l.rings.map Placed.shape := List.mem_map_of_mem hp
  rw [hshape, List.mem_cons, List.mem_map] at hmem
  rcases hmem with h | ⟨d, hd, h⟩
  · exact .inl (congrArg (·.2.2) h)
  · exact .inr ⟨d, hd, (congrArg (·.2.2) h).symm⟩

theorem shape_mem {l : Local} {descs : List RingDesc}
    (hshape : l.rings.map Placed.shape = (lockRingPriority, lockRingCapacity, lockRingMsgSize) ::
      descs.map fun d => (d.priority.toNat, d.ringCapacity, d.maxMsgSize)) {d : RingDesc}
    (hd : d ∈ descs) : ∃ p ∈ l.rings, p.maxMsgSize = d.maxMsgSize := by
  have hmem : (d.priority.toNat, d.ringCapacity, d.maxMsgSize) ∈ l.rings.map Placed.shape := by
    rw [hshape]
    exact List.mem_cons_of_mem _ (List.mem_map_of_mem hd)
  obtain ⟨p, hp, h⟩ := List.mem_map.mp hmem
  exact ⟨p, hp, congrArg (·.2.2) h⟩

/-- Rings that were constructed around a stretch that nobody may write do not go round 64 bits. -/
theorem Built.lt {l : Local} {g : ℕ} (h : Built writable base l b)
    (hbase : base < 18446744073709551616)
    (hgap : ∀ i < 8589934592, writable (u64 (g + i)) = false) : b < 18446744073709551616 := by
  by_contra hb
  have hpad : padding base < 64 := Nat.mod_lt _ (by decide)
  have hstart : u64Sub g base < 18446744073709551616 := u64_lt _
  -- the first byte of the stretch that is behind the padding
  obtain ⟨t, hle, hnear, hw⟩ := h.stacked.near h.rings (x := max (padding base) (u64Sub g base))
    (le_max_left _ _) (by omega)
  have heq : u64 (base + t) = u64 (g + (t - u64Sub g base)) := by
    unfold u64Sub u64 at *
    omega
  rw [heq, hgap _ (by omega)] at hw
  cases hw

/-- Where some `2^33` addresses in a row cannot be written, an accepted layout is sound iff the
    largest message leaves room for the spare bytes of the receive buffer. -/
theorem layout_sound_iff (writable : ℕ → Bool) (areaSize limit base : ℕ) (out : List ℕ)
    (descs : List RingDesc) (l : Local) (hbase : base < 18446744073709551616)
    (hgap : ∃ g, ∀ i < 8589934592, writable (u64 (g + i)) = false)
    (hdescs : ∀ d ∈ descs, d.ringCapacity < 4294967296 ∧ d.maxMsgSize < 4294967296)
    (hcheck : checkMemoryCapacity areaSize limit base descs = 0)
    (hcreate : createLocalRings writable base out descs = .ok l) :
    Sound base limit descs l ↔ ∀ d ∈ descs, d.maxMsgSize + 80 < 4294967296 := by
  obtain ⟨hfits, l₀, rfl, hbuilt, hshape⟩ := built_of_accepted hdescs hcheck hcreate
  obtain ⟨g, hgap⟩ := hgap
  have hneeded := hbuilt.lt hbase hgap
  constructor
  · intro h d hd
    -- the largest message is that of some ring, and its buffer has not wrapped around
    obtain ⟨p, hp, hmax⟩ := hbuilt.reached
    obtain ⟨q, hq, hqd⟩ := shape_mem hshape hd
    have hle := hbuilt.buffer q hq
    have hbuffer : p.maxMsgSize ≤ u32 (l₀.maxMsgSizeGlobal + (16 + 64)) := h.buffer p hp
    have hlt := (hbuilt.rings p hp).1.maxMsgSize
    rw [hmax, u32] at hbuffer
    omega
  · intro hspare
    have heach := hbuilt.stacked.each hbase hneeded
      (by unfold padding cachelineSize; omega)
    have hlimit : needed base descs ≤ limit := by
      rwa [u64, Nat.mod_eq_of_lt hneeded] at hfits
    refine ⟨hshape, fun p hp => (heach p hp).1, ?_, fun p hp => (heach p hp).2.2.trans hlimit,
      hbuilt.offsets, fun p hp => ?_⟩
    · exact hbuilt.stacked.apart hbase hneeded (by unfold padding cachelineSize; omega)
    · have hle := hbuilt.buffer p hp
      obtain ⟨q, hq, hmax⟩ := hbuilt.reached
      have hroom : q.maxMsgSize + 80 < 4294967296 := by
        rcases mem_shape hshape hq with h | ⟨d, hd, h⟩
        · rw [h]
          decide
        · rw [h]
          exact hspare d hd
      show p.maxMsgSize ≤ u32 (l₀.maxMsgSizeGlobal + (16 + 64))
      rw [u32, Nat.mod_eq_of_lt (by omega)]
      omega

/-! ### The offsets that are published -/

/-- Priority and offset of every ring, the last one first. -/
def Local.table (base : ℕ) (l : Local) : List (ℕ × ℕ) :=
  (l.rings.map fun p => (p.priority, u64Sub p.addr base)).reverse

theorem table_fst (l : Local) :
    (l.table base).map Prod.fst = (l.rings.map Placed.priority).reverse := by
  rw [Local.table, List.map_reverse, List.map_map]
  rfl

theorem alignAddr_of_mod {addr : ℕ} (h : addr % 64 = 0) : Billboard.alignAddr addr = addr := by
  unfold Billboard.alignAddr cachelineSize
  omega

/-- A node that builds its rings step by step comes to the same offsets. -/
theorem createUserRings_table {k : ℕ} {s s' : Billboard.Mem} {r : Except ℤ (List (ℕ × ℕ))}
    {ds : List RingDesc} {l l' : Local} (hbase : base < 18446744073709551616)
    (hbuilt : Built writable base l b) (hds : ∀ d ∈ ds, Placeable d)
    (hl' : placeUserRings writable base ds l = .ok l') (hend : b + userBytes ds < 18446744073709551616)
    (hrun : Conc.Prog.Run (Billboard.createUserRings k base ds (base + b) (l.table base)) s r s') :
    r = .ok (l'.table base) := by
  induction ds generalizing l b s with
  | nil =>
    cases hl'
    cases hrun
    rfl
  | cons d ds ih =>
    obtain ⟨hzero, hprio, hfresh, hallowed, hl'⟩ := placeUserRings_cons hl'
    have hd := hds d List.mem_cons_self
    have hb : b < 18446744073709551616 := by
      unfold userBytes at hend
      omega
    have hplace := hbuilt.place hd hprio hfresh hallowed
    have hnew : ((l.table base).map Prod.fst).contains d.priority.toNat = false := by
      rw [table_fst]
      simpa using hfresh
    have htable : (l.place base d.priority.toNat d.ringCapacity d.maxMsgSize).table base =
        (d.priority.toNat, b) :: l.table base := by
      unfold Local.table Local.place
      rw [hbuilt.next, List.map_append, List.reverse_append]
      simp [u64Sub_addr hbase hb]
    rw [Billboard.createUserRings, if_neg hzero, if_neg (not_le.mpr hprio),
      if_neg (by rw [hnew]; decide), alignAddr_of_mod hbuilt.aligned] at hrun
    obtain ⟨_, s₁, -, hrun⟩ := hrun.of_bind
    refine ih (s := s₁) hplace (fun d' hd' => hds d' (List.mem_cons_of_mem d hd')) hl' ?_ ?_
    · unfold userBytes at hend ⊢
      rw [List.map_cons, List.sum_cons] at hend
      omega
    · rw [htable, ← Nat.add_assoc]
      rwa [Nat.add_sub_cancel_left] at hrun

/-- A call that is known to succeed by evaluation. -/
theorem exists_ok {ε α : Type} {c : Except ε α} {P : α → Prop} [DecidablePred P]
    (h : c.toOption.any (fun x => decide (P x)) = true) : ∃ x, c = .ok x ∧ P x := by
  cases c with
  | error e => cases h
  | ok x => exact ⟨x, rfl, of_decide_eq_true h⟩

/-- The addresses of a process with 47 bits. -/
def userSpace (addr : ℕ) : Bool := addr < 140737488355328

theorem userSpace_gap (i : ℕ) (hi : i < 8589934592) :
    userSpace (u64 (140737488355328 + i)) = false := by
  rw [userSpace, u64, decide_eq_false_iff_not]
  omega

/-- One ring of four slots in a region of one megabyte. -/
theorem layout_sound_small : ∃ l,
    createLocalRings userSpace 4096 (List.replicate 8 0) [⟨4, 64, 1⟩] = .ok l ∧
      Sound 4096 1048576 [⟨4, 64, 1⟩] l := by
  obtain ⟨l, hl, -⟩ : ∃ l,
      createLocalRings userSpace 4096 (List.replicate 8 0) [⟨4, 64, 1⟩] = .ok l ∧ True :=
    exists_ok (by decide +kernel)
  exact ⟨l, hl, (layout_sound_iff userSpace 2048 1048576 4096 (List.replicate 8 0) [⟨4, 64, 1⟩] l
    (by norm_num) ⟨_, userSpace_gap⟩ (by simp) (by decide) hl).mpr (by simp)⟩

/-- A ring for messages of `2^32 - 1` bytes gives a receive buffer of 79 bytes. -/
theorem layout_unsound : checkMemoryCapacity 2048 8589934592 4096 [⟨1, 4294967295, 1⟩] = 0 ∧
    ∃ l, createLocalRings userSpace 4096 (List.replicate 8 0) [⟨1, 4294967295, 1⟩] = .ok l ∧
      l.maxMsgSizeGlobal = 79 ∧ ∃ p ∈ l.rings, p.maxMsgSize = 4294967295 :=
  ⟨by decide, exists_ok (by decide +kernel)⟩

end Regions

end UbsAtomic
