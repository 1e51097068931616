import UbsAtomic.Conc.Sequential
import UbsAtomic.Ring.Delivery

/-! One enqueue that nobody disturbs.

    `enqueue_local` and `enqueue_remote` decide from different copies of `head` and of the threshold,
    and refresh them at different times. A copy of `head` lags behind, so it overstates the use of
    the ring; it is believed only where the overstatement does not matter:

        cached used:   0 ───────────── threshold ───────── capacity
        decision:      OK, unrefreshed      │ refresh, then decide from `head` itself

    The same holds for the full check, as long as the head a producer has cached is one the ring has
    really had. `trigger_force_full` puts the head back, and then a cached head is ahead of it. -/

namespace UbsAtomic

open Conc Conc.Prog

namespace Ring

/-- Bytes written one after the other from offset `off` on. -/
def putBytes (data : ℕ → UInt8) : List UInt8 → ℕ → ℕ → UInt8
  | [], _ => data
  | b :: bs, off => putBytes (Function.update data off b) bs (off + 1)

theorem putBytes_append (data : ℕ → UInt8) (bs cs : List UInt8) (off : ℕ) :
    putBytes data (bs ++ cs) off = putBytes (putBytes data bs off) cs (off + bs.length) := by
  induction bs generalizing data off with
  | nil => rfl
  | cons b bs ih =>
    rw [List.cons_append, putBytes, putBytes, ih, List.length_cons]
    congr 1
    omega

variable {cf : Conf} {s : Mem} {m : Message}

/-! ### Flow control -/

/-- The result of a sample: `used` entries against the threshold. -/
def flowCode (used threshold : ℕ) : ℤ := if threshold ≤ used then ubCommSendCongested else ubCommOk

/-- Only what flow control remembers of the ring has changed. -/
def Sampled (s s' : Mem) : Prop :=
  ∃ d c, s' = { s with ring := { s.ring with maxDepth := d, congested := c } }

theorem total_recordDepth (used : ℕ) :
    Total (· = 0) (fun _ s' => ∃ d, s' = { s with ring := { s.ring with maxDepth := d } })
      (recordDepth used) s := by
  refine .bind (total_load rfl (total_loop ?_))
  split
  · exact .bind (total_casWeak (fun _ => .ret ⟨used, rfl⟩) fun hne => absurd rfl hne)
  · exact .ret ⟨s.ring.maxDepth, rfl⟩

theorem total_sampleFlowState (sample : ℕ) :
    Total (· = 0) (fun r s' => r = flowCode (min sample cf.capacity) s.ring.congestionThreshold ∧
      Sampled s s') (sampleFlowState cf sample) s := by
  refine .bind ((total_recordDepth _).mono ?_)
  rintro _ _ ⟨d, rfl⟩
  refine .bind (total_load rfl ?_)
  have hthreshold : thresholdAt.get { s with ring := { s.ring with maxDepth := d } } =
      s.ring.congestionThreshold := rfl
  rw [hthreshold]
  split
  · rename_i hhigh
    rw [flowCode, if_pos hhigh]
    refine .bind (total_load rfl ?_)
    split
    · exact .ret ⟨rfl, d, s.ring.congested, rfl⟩
    · exact .bind (total_cas rfl (fun _ => .ret ⟨rfl, d, true, rfl⟩)
        fun _ => .ret ⟨rfl, d, s.ring.congested, rfl⟩)
  · rename_i hlow
    rw [flowCode, if_neg hlow]
    refine .bind (total_load rfl ?_)
    split
    · exact .ret ⟨rfl, d, s.ring.congested, rfl⟩
    · rename_i hcong
      have hcong : s.ring.congested = true := eq_true_of_ne_false hcong
      exact .bind (total_cas rfl (fun _ => .ret ⟨rfl, d, false, rfl⟩) fun hne => absurd hcong hne)

/-- Head, tail, slots and thresholds are what they were. -/
structure Kept (s s' : Mem) : Prop where
  head : s'.ring.head = s.ring.head
  tail : s'.ring.tail = s.ring.tail
  entries : s'.ring.entries = s.ring.entries
  threshold : s'.ring.congestionThreshold = s.ring.congestionThreshold
  version : s'.ring.congestionThresholdVersion = s.ring.congestionThresholdVersion
  cachedThreshold : ∀ n, (s'.caches n).cachedThreshold = (s.caches n).cachedThreshold
  cachedVersion : ∀ n, (s'.caches n).cachedThresholdVersion = (s.caches n).cachedThresholdVersion

theorem Kept.refl (s : Mem) : Kept s s := ⟨rfl, rfl, rfl, rfl, rfl, fun _ => rfl, fun _ => rfl⟩

theorem Kept.trans {s s' s'' : Mem} (h : Kept s s') (h' : Kept s' s'') : Kept s s'' where
  head := h'.head.trans h.head
  tail := h'.tail.trans h.tail
  entries := h'.entries.trans h.entries
  threshold := h'.threshold.trans h.threshold
  version := h'.version.trans h.version
  cachedThreshold n := (h'.cachedThreshold n).trans (h.cachedThreshold n)
  cachedVersion n := (h'.cachedVersion n).trans (h.cachedVersion n)

theorem Sampled.kept {s s' : Mem} (h : Sampled s s') : Kept s s' := by
  obtain ⟨d, c, rfl⟩ := h
  exact ⟨rfl, rfl, rfl, rfl, rfl, fun _ => rfl, fun _ => rfl⟩

/-- Where a producer keeps its copy of the head. -/
structure Caches (p : Place Mem ℕ) : Prop where
  get_set : ∀ v s, p.get (p.set v s) = v
  kept : ∀ v s, Kept s (p.set v s)
  sampled : ∀ {s s'}, Sampled s s' → p.get s' = p.get s
  tail : ∀ v s, p.get (tailAt.set v s) = p.get s

theorem caches_local : Caches localCachedHeadAt where
  get_set _ _ := rfl
  kept _ _ := ⟨rfl, rfl, rfl, rfl, rfl, fun _ => rfl, fun _ => rfl⟩
  sampled := by
    rintro s _ ⟨d, c, rfl⟩
    rfl
  tail _ _ := rfl

theorem caches_remote (n : ℕ) : Caches (shadowHeadAt n) where
  get_set v s := by simp [shadowHeadAt, cacheField]
  kept v s := by
    refine ⟨rfl, rfl, rfl, rfl, rfl, fun i => ?_, fun i => ?_⟩
    · by_cases hi : i = n
      · subst hi
        simp [shadowHeadAt, cacheField]
      · simp [shadowHeadAt, cacheField, hi]
    · by_cases hi : i = n
      · subst hi
        simp [shadowHeadAt, cacheField]
      · simp [shadowHeadAt, cacheField, hi]
  sampled := by
    rintro s _ ⟨d, c, rfl⟩
    rfl
  tail _ _ := rfl

section Producer

variable {p : Place Mem ℕ} (hp : Caches p)

include hp

/-- Refreshing the copy and sampling. -/
theorem total_refresh {newTail : ℕ} (hle : s.ring.head ≤ newTail)
    (hroom : newTail ≤ s.ring.head + cf.capacity) :
    Total (· = 0) (fun r s' => r = flowCode (newTail - s.ring.head) s.ring.congestionThreshold ∧
      Kept s s') (do
        let fresh ← load headAt
        store p fresh
        sampleFlowState cf (newTail - fresh)) s := by
  refine .bind (total_load rfl (.bind (total_store rfl ?_)))
  refine (total_sampleFlowState _).mono ?_
  rintro r s' ⟨hr, hs'⟩
  refine ⟨hr.trans ?_, (hp.kept _ s).trans hs'.kept⟩
  have hused : newTail - headAt.get s = newTail - s.ring.head := rfl
  rw [(hp.kept _ s).threshold, hused, Nat.min_eq_left (by omega)]

/-- A copy of the head that lags behind does not change the answer. -/
theorem total_flowResultAfterEnqueue {newTail : ℕ} (hlag : p.get s ≤ s.ring.head)
    (hle : s.ring.head ≤ newTail) (hroom : newTail ≤ s.ring.head + cf.capacity) :
    Total (· = 0) (fun r s' => r = flowCode (newTail - s.ring.head) s.ring.congestionThreshold ∧
      Kept s s') (flowResultAfterEnqueue cf newTail p) s := by
  refine .bind (total_load rfl (.bind (total_load rfl ?_)))
  split
  · rename_i hlow
    have hlow : newTail - p.get s < s.ring.congestionThreshold := hlow
    rw [flowCode, if_neg (by omega)]
    exact .ret ⟨rfl, Kept.refl s⟩
  · exact total_refresh hp hle hroom

/-- The full check answers what the ring itself would answer. -/
theorem total_hasRoom {e : Label} (hlag : p.get s ≤ s.ring.head) (hle : s.ring.head ≤ s.ring.tail)
    (hroom : s.ring.tail ≤ s.ring.head + cf.capacity)
    (hfit : s.ring.head + cf.capacity < 18446744073709551616) :
    Total (· = 0) (fun room s' => room = decide (s.ring.tail - s.ring.head ≠ cf.capacity) ∧
      Kept s s' ∧ p.get s' ≤ s.ring.head) (hasRoom cf e p s.ring.tail) s := by
  have hsum : ∀ h ≤ s.ring.head, u64 (h + cf.capacity) = h + cf.capacity := by
    intro h hh
    exact Nat.mod_eq_of_lt (by omega)
  refine .bind (total_load rfl ?_)
  rw [hsum _ hlag]
  split
  · refine .bind (total_load rfl (.bind (total_store rfl ?_)))
    have hhead : headAt.get s = s.ring.head := rfl
    rw [hhead, hsum _ le_rfl]
    have hget : p.get (p.set s.ring.head s) ≤ s.ring.head := (hp.get_set _ s).le
    split
    · refine .bind ((total_sampleFlowState _).mono ?_)
      rintro r s' ⟨-, hs'⟩
      refine .ret ⟨?_, (hp.kept _ s).trans hs'.kept, (hp.sampled hs').trans_le hget⟩
      rw [eq_comm, decide_eq_false_iff_not]
      omega
    · refine .ret ⟨?_, hp.kept _ s, hget⟩
      rw [eq_comm, decide_eq_true_iff]
      omega
  · refine .ret ⟨?_, Kept.refl s, hlag⟩
    rw [eq_comm, decide_eq_true_iff]
    omega

end Producer

/-- A copy of the threshold that is up to date is read instead of the threshold. -/
theorem total_refreshCachedThreshold {n : ℕ}
    (hthreshold : (s.caches n).cachedThreshold = s.ring.congestionThreshold)
    (hversion : (s.caches n).cachedThresholdVersion = s.ring.congestionThresholdVersion) :
    Total (· = 0) (fun t s' => t = s.ring.congestionThreshold ∧ s' = s)
      (refreshCachedThreshold n) s := by
  refine .bind (total_load rfl (.bind (total_load rfl ?_)))
  have heq : thresholdVersionAt.get s = (cachedThresholdVersionAt n).get s := hversion.symm
  rw [if_neg (not_not_intro heq)]
  exact total_load rfl ⟨hthreshold, rfl⟩

/-- `flow_result_after_enqueue_cached` with such a copy; a threshold of `0` is never met. -/
theorem total_flowResultAfterEnqueueCached {newTail n : ℕ}
    (hlag : (s.caches n).shadowHead ≤ s.ring.head) (hle : s.ring.head ≤ newTail)
    (hroom : newTail ≤ s.ring.head + cf.capacity)
    (hthreshold : (s.caches n).cachedThreshold = s.ring.congestionThreshold)
    (hversion : (s.caches n).cachedThresholdVersion = s.ring.congestionThresholdVersion) :
    Total (· = 0) (fun r s' => r = flowCode (newTail - s.ring.head) s.ring.congestionThreshold ∧
      Kept s s') (flowResultAfterEnqueueCached cf newTail n) s := by
  have hcached : Total (· = 0) (fun t s' => t = s.ring.congestionThreshold ∧ s' = s)
      (cachedFlowThreshold newTail n) s := by
    refine .bind (total_load rfl (.bind (total_load rfl ?_)))
    split
    · exact total_refreshCachedThreshold hthreshold hversion
    · exact .ret ⟨hthreshold, rfl⟩
  refine .bind (hcached.mono ?_)
  rintro t s₁ ⟨ht, hs₁⟩
  subst ht hs₁
  split
  · rename_i hzero
    rw [flowCode, if_pos (by omega)]
    exact .ret ⟨rfl, Kept.refl _⟩
  · refine .bind (total_load rfl ?_)
    split
    · rename_i hlow
      have hlow : newTail - (s₁.caches n).shadowHead < s₁.ring.congestionThreshold := hlow
      rw [flowCode, if_neg (by omega)]
      exact .ret ⟨rfl, Kept.refl _⟩
    · refine .bind ((total_refreshCachedThreshold hthreshold hversion).mono ?_)
      rintro _ _ ⟨-, rfl⟩
      exact total_refresh (caches_remote n) hle hroom

/-! ### The slot -/

def Mem.setEntry (s : Mem) (i : ℕ) (e : Entry) : Mem := { s with ring := s.ring.setEntry i e }

theorem total_copyIn (k i : ℕ) (bs : List UInt8) (off : ℕ) :
    Total (· = 0) (fun _ s' => s' = s.setEntry i ⟨(s.ring.entries i).readySeq,
      putBytes (s.ring.entries i).data bs off⟩) (copyIn k i bs off) s := by
  induction bs generalizing s off with
  | nil => exact .ret (by simp [putBytes, Mem.setEntry, RingBuffer.setEntry])
  | cons b bs ih =>
    refine .bind (total_store rfl ?_)
    refine (ih (off + 1)).mono ?_
    rintro _ _ rfl
    simp [byteAt, field, Mem.setEntry, RingBuffer.setEntry, putBytes]

/-- The entry of a ticket once its message is committed. -/
def committed (old : Entry) (m : Message) (k : ℕ) : Entry := ⟨k + 1, putBytes old.data m.bytes 0⟩

theorem total_writeEntry (k : ℕ) :
    Total (· = 0) (fun _ s' => s' = s.setEntry (cf.index k)
      (committed (s.ring.entries (cf.index k)) m k)) (writeEntry cf m k) s := by
  have hbytes (data : ℕ → UInt8) : putBytes data m.bytes 0 =
      putBytes (putBytes data m.header.bytes 0) m.body msgHeaderLen := by
    rw [Message.bytes, putBytes_append]
    simp [Header.bytes, leBytes, msgHeaderLen]
  refine .bind ((total_copyIn k _ _ 0).mono ?_)
  rintro _ _ rfl
  split
  · refine .bind ((total_copyIn k _ _ msgHeaderLen).mono ?_)
    rintro _ _ rfl
    refine total_store rfl ?_
    simp [committed, hbytes, readySeqAt, field, Mem.setEntry, RingBuffer.setEntry]
  · rename_i hbody
    have hnil : m.body = [] := List.length_eq_zero_iff.mp (by omega)
    refine total_store rfl ?_
    simp [committed, hbytes, hnil, putBytes, readySeqAt, field, Mem.setEntry, RingBuffer.setEntry]

/-! ### The two calls -/

/-- The next ticket has gone to `m`. -/
def Mem.reserved (s : Mem) (m : Message) : Mem :=
  { s with ring := { s.ring with tail := s.ring.tail + 1, log := s.ring.log ++ [m] } }

theorem total_reserve {currTail : ℕ} (htail : s.ring.tail = currTail) :
    Total (· = 0) (fun b s' => b = (true, currTail) ∧ s' = s.reserved m) (reserve m currTail) s := by
  subst htail
  refine .act ⟨0, rfl, by simp⟩ ?_
  rintro c s' b rfl hf
  simp only [and_true, if_true, Option.some.injEq, Prod.mk.injEq] at hf
  exact .ret ⟨hf.2.symm, hf.1.symm⟩

/-- What an enqueue returns, and what it leaves of head, tail and slots. -/
structure Outcome where
  code : ℤ
  head : ℕ
  tail : ℕ
  entries : ℕ → Entry

/-- The call ended so. -/
def Outcome.Is (o : Outcome) (r : ℤ) (s' : Mem) : Prop :=
  r = o.code ∧ s'.ring.head = o.head ∧ s'.ring.tail = o.tail ∧ s'.ring.entries = o.entries

/-- What one undisturbed enqueue does to the ring. -/
def outcome (cf : Conf) (m : Message) (r : RingBuffer) : Outcome :=
  if r.tail - r.head = cf.capacity then ⟨ubCommErrRingFull, r.head, r.tail, r.entries⟩
  else ⟨flowCode (r.tail + 1 - r.head) r.congestionThreshold, r.head, r.tail + 1,
    Function.update r.entries (cf.index r.tail) (committed (r.entries (cf.index r.tail)) m r.tail)⟩

/-- The full check and the reservation: a full ring is left alone, another one loses a ticket. -/
theorem total_take {p : Place Mem ℕ} (hp : Caches p) {e : Label}
    (hlag : p.get s ≤ s.ring.head) (hle : s.ring.head ≤ s.ring.tail)
    (hroom : s.ring.tail ≤ s.ring.head + cf.capacity)
    (hfit : s.ring.head + cf.capacity < 18446744073709551616) {α : Type} {full taken : α}
    {retry : Bool × ℕ → α} {Q : α → Mem → Prop}
    (hfull : s.ring.tail - s.ring.head = cf.capacity → ∀ s', Kept s s' → Q full s')
    (htaken : s.ring.tail - s.ring.head ≠ cf.capacity → ∀ s', Kept s s' → p.get s' ≤ s.ring.head →
      Q taken (s'.reserved m)) :
    Total (· = 0) Q (do
      let room ← hasRoom cf e p s.ring.tail
      if room = false then
        return full
      let got ← reserve m s.ring.tail
      if got.1 then
        return taken
      return retry got) s := by
  refine .bind ((total_hasRoom hp hlag hle hroom hfit).mono ?_)
  rintro room s₁ ⟨rfl, hkept, hlag₁⟩
  split
  · rename_i hno
    exact .ret (hfull (by simpa using hno) s₁ hkept)
  · rename_i hyes
    refine .bind ((total_reserve hkept.tail).mono ?_)
    rintro _ _ ⟨rfl, rfl⟩
    exact .ret (htaken (by simpa using hyes) s₁ hkept hlag₁)

/-- The message with its ticket, written and committed. -/
def Mem.delivered (s : Mem) (cf : Conf) (m : Message) : Mem :=
  (s.reserved m).setEntry (cf.index s.ring.tail)
    (committed (s.ring.entries (cf.index s.ring.tail)) m s.ring.tail)

/-- The part after the reservation, given what flow control answers in the end. -/
theorem total_deliver {s₁ : Mem} {flow : Call ℤ} (hnot : s.ring.tail - s.ring.head ≠ cf.capacity)
    (hkept : Kept s s₁)
    (hflow : Total (· = 0) (fun r s' => r = flowCode (s.ring.tail + 1 - s₁.ring.head)
      s₁.ring.congestionThreshold ∧ Kept (s₁.delivered cf m) s') flow (s₁.delivered cf m)) :
    Total (· = 0) (outcome cf m s.ring).Is (do
      writeEntry cf m s.ring.tail
      flow) (s₁.reserved m) := by
  rw [← hkept.tail] at hflow
  refine .bind ((total_writeEntry _).mono ?_)
  intro _ s₂ hs₂
  rw [← hkept.tail] at hs₂
  subst hs₂
  refine Total.mono hflow ?_
  rintro r s' ⟨hr, hs'⟩
  rw [outcome, if_neg hnot]
  refine ⟨?_, hs'.head.trans hkept.head, hs'.tail.trans ?_, hs'.entries.trans ?_⟩
  · rw [hr, hkept.head, hkept.tail, hkept.threshold]
  · exact congrArg (· + 1) hkept.tail
  · show Function.update s₁.ring.entries _ _ = _
    rw [hkept.tail, hkept.entries]

section Calls

variable (hle : s.ring.head ≤ s.ring.tail) (hroom : s.ring.tail ≤ s.ring.head + cf.capacity)
  (hfit : s.ring.head + cf.capacity < 18446744073709551616)
  (hsize : m.Fits cf)

include hle hroom hfit hsize

theorem total_enqueueLocal (hlag : s.ring.localProducerCachedHead ≤ s.ring.head) :
    Total (· = 0) (outcome cf m s.ring).Is (enqueueLocal cf m) s := by
  rw [enqueueLocal, if_neg (fits hsize)]
  refine .bind (total_load rfl (.bind (total_loop (total_take caches_local hlag hle hroom hfit ?_ ?_))))
  · intro hfull s₁ hkept
    rw [outcome, if_pos hfull]
    exact .ret ⟨rfl, hkept.head, hkept.tail, hkept.entries⟩
  · intro hnot s₁ hkept hlag₁
    have hhead : (s₁.delivered cf m).ring.head = s.ring.head := hkept.head
    refine total_deliver hnot hkept
      (total_flowResultAfterEnqueue (s := s₁.delivered cf m) caches_local ?_ ?_ ?_)
    · exact hlag₁.trans hhead.ge
    · omega
    · omega

theorem total_enqueueRemote {n : ℕ} (hlag : (s.caches n).shadowHead ≤ s.ring.head)
    (hthreshold : (s.caches n).cachedThreshold = s.ring.congestionThreshold)
    (hversion : (s.caches n).cachedThresholdVersion = s.ring.congestionThresholdVersion) :
    Total (· = 0) (outcome cf m s.ring).Is (enqueueRemote cf n m) s := by
  rw [enqueueRemote, if_neg (fits hsize)]
  refine .bind (total_load rfl (.bind (total_loop ?_)))
  rw [reserveRemoteRound, if_neg (Nat.not_lt_zero _)]
  refine total_take (caches_remote n) hlag hle hroom hfit ?_ ?_
  · intro hfull s₁ hkept
    rw [outcome, if_pos hfull]
    exact .ret ⟨rfl, hkept.head, hkept.tail, hkept.entries⟩
  · intro hnot s₁ hkept hlag₁
    have hhead : (s₁.delivered cf m).ring.head = s.ring.head := hkept.head
    refine total_deliver hnot hkept
      (total_flowResultAfterEnqueueCached (s := s₁.delivered cf m) ?_ ?_ ?_ ?_ ?_)
    · exact hlag₁.trans hhead.ge
    · omega
    · omega
    · exact (hkept.cachedThreshold n).trans (hthreshold.trans hkept.threshold.symm)
    · exact (hkept.cachedVersion n).trans (hversion.trans hkept.version.symm)

end Calls

/-- Both enqueues are one operation: as long as no copy of the head is ahead of it and the copy of
    the threshold is up to date, they return the same code and leave the same ring. `tail_` is at
    most `head_ + entry_num_` on 64 bits; `entry_num_` comes from a `uint32_t`. -/
theorem enqueueLocal_same_as_enqueueRemote (cf : Conf) (n : ℕ) (m : Message) (s : Mem)
    (hcapacity : cf.capacity < 4294967296) (hle : s.ring.head ≤ s.ring.tail)
    (hroom : s.ring.tail ≤ u64 (s.ring.head + cf.capacity))
    (hlocal : s.ring.localProducerCachedHead ≤ s.ring.head)
    (hshadow : (s.caches n).shadowHead ≤ s.ring.head)
    (hthreshold : (s.caches n).cachedThreshold = s.ring.congestionThreshold)
    (hversion : (s.caches n).cachedThresholdVersion = s.ring.congestionThresholdVersion)
    (hsize : msgHeaderLen + m.body.length ≤ cf.maxMsgSize) :
    ∃ o : Outcome, Total (· = 0) o.Is (enqueueLocal cf m) s ∧
      Total (· = 0) o.Is (enqueueRemote cf n m) s ∧
      (o.code = ubCommErrRingFull ∧ o.head = s.ring.head ∧ o.tail = s.ring.tail ∧
        o.entries = s.ring.entries ↔ s.ring.tail - s.ring.head = cf.capacity) ∧
      (s.ring.tail - s.ring.head ≠ cf.capacity →
        o.head = s.ring.head ∧ o.tail = s.ring.tail + 1 ∧
        o.entries = Function.update s.ring.entries (cf.index s.ring.tail)
          (committed (s.ring.entries (cf.index s.ring.tail)) m s.ring.tail) ∧
        (o.code = ubCommSendCongested ↔
          s.ring.congestionThreshold ≤ s.ring.tail + 1 - s.ring.head) ∧
        (o.code = ubCommOk ↔ ¬ s.ring.congestionThreshold ≤ s.ring.tail + 1 - s.ring.head)) := by
  have hfit : s.ring.head + cf.capacity < 18446744073709551616 := by
    rw [u64] at hroom
    omega
  have hroom' : s.ring.tail ≤ s.ring.head + cf.capacity := hroom.trans (u64_le _)
  refine ⟨outcome cf m s.ring, total_enqueueLocal hle hroom' hfit hsize hlocal,
    total_enqueueRemote hle hroom' hfit hsize hshadow hthreshold hversion, ⟨?_, ?_⟩, ?_⟩
  · rintro ⟨-, -, htail, -⟩
    by_contra hnot
    rw [outcome, if_neg hnot] at htail
    exact Nat.succ_ne_self _ htail
  · intro hfull
    rw [outcome, if_pos hfull]
    exact ⟨rfl, rfl, rfl, rfl⟩
  · intro hnot
    rw [outcome, if_neg hnot]
    refine ⟨rfl, rfl, rfl, ?_, ?_⟩
    · simp [flowCode, ubCommSendCongested, ubCommOk]
    · simp [flowCode, ubCommSendCongested, ubCommOk]

/-- A ring of two slots with one message in it; the copies of the head are one message behind. -/
def halfFull : Mem :=
  { Mem.init smallConf with
    ring := { RingBuffer.init smallConf with head := 1, tail := 2, congestionThreshold := 1 }
    caches := fun _ => ⟨true, true, 0, 1, 1, 0⟩ }

theorem enqueue_same_halfFull : ∃ o : Outcome,
    Total (· = 0) o.Is (enqueueLocal smallConf (shortMessage 0 7)) halfFull ∧
    Total (· = 0) o.Is (enqueueRemote smallConf 3 (shortMessage 0 7)) halfFull ∧
    o.code = ubCommSendCongested := by
  obtain ⟨o, hl, hr, -, ho⟩ := enqueueLocal_same_as_enqueueRemote smallConf 3 (shortMessage 0 7) halfFull
    (by decide) (by decide) (by decide) (by decide) (by decide) rfl rfl (by decide)
  exact ⟨o, hl, hr, (ho (by decide)).2.2.2.1.mpr (by decide)⟩

end Ring

end UbsAtomic
