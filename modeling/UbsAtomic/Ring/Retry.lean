import UbsAtomic.Conc.Trace
import UbsAtomic.Ring.RingRuns
import UbsAtomic.Ring.Transport

/-! Sending a lock message until it is taken (`message_manage.cpp`, `ub_mutex_lock.cpp`).

        attempt   1      2      3      4      5
        send      < 0    < 0    1      ...          retried on every result but 0
                  │      │      │
                  not placed    placed, CONGESTED

    `send` places a copy of the message exactly if it answers OK or CONGESTED (`costs_send`). The
    retry loops take every answer but OK for a failure. -/

namespace UbsAtomic

open Conc Conc.Prog

namespace Ring

/-! ### UBShmTransport::send -/

def msgTypeDistLock : UInt8 := 255
def msgTypeSysPeerExit : UInt8 := 254
def msgTypeSysFlowConfigUpdate : UInt8 := 253

def ePerm : ℤ := -1
def ubCommErrPeerNodeNotFound : ℤ := -4098

/-- What a node has been configured with: its own id, the ids it knows, and whether it has a ring of
    its own. -/
structure Endpoint where
  currentNodeId : UInt8
  knows : UInt8 → Bool
  localRing : Bool

/-- The ring a message goes to; `none` is the priority that is kept for locks. -/
def ringPriority (h : Header) : Option ℕ :=
  if h.msgType = msgTypeDistLock ∨ h.msgType = msgTypeSysPeerExit
      ∨ h.msgType = msgTypeSysFlowConfigUpdate then some lockRingPriority
  else if h.priority = 0 then none
  else some h.priority.toNat

/-- The checks that `send` begins with. -/
def sendRefusal (ep : Endpoint) (h : Header) : Option ℤ :=
  if ep.currentNodeId ≠ h.srcNodeId then some ePerm
  else
    match ringPriority h with
    | none => some eInval
    | some prio =>
      if prio ≥ maxPriorityLevels then some eInval
      else if h.destNodeId.toNat ≥ maxNodesLimit then some eInval
      else if h.destNodeId ≠ ep.currentNodeId ∧ ep.knows h.destNodeId = false then
        some ubCommErrPeerNodeNotFound
      else none

variable (cf : Conf)

/-- `UBShmTransport::send` by thread `k`, into the ring of the destination. -/
def transportSend (ep : Endpoint) (k : ℕ) (m : Message) : Call ℤ :=
  match sendRefusal ep m.header with
  | some e => return e
  | none => do
    if m.header.destNodeId = ep.currentNodeId then
      if ep.localRing = false then
        return ubCommErrRingNotFound
      enqueueLocal cf m
    else
      send cf ep.currentNodeId.toNat k m

/-! ### The retry loops -/

/-- The loop of `send_with_retry`, with the results that its attempts got. -/
def attempts (attempt : Call ℤ) : ℕ → Call (List ℤ × UbsAtomic.Result)
  | 0 => return ([], .error)
  | left + 1 => do
    let ret ← attempt
    if ret = 0 then
      return ([ret], .success)
    let rest ← attempts attempt left
    return (ret :: rest.1, rest.2)

/-- `send_with_retry`. -/
def sendWithRetry (ep : Endpoint) (k : ℕ) (m : Message) (maxAttempts : ℕ) :
    Call (List ℤ × UbsAtomic.Result) :=
  attempts (transportSend cf ep k m) maxAttempts

/-- `mutex_send_with_retry`; there may be no transport. -/
def mutexSendWithRetry (up : Bool) (ep : Endpoint) (k : ℕ) (m : Message) (maxAttempts : ℕ) :
    Call (List ℤ × UbsAtomic.Result) := do
  if up = false then
    return ([], .error)
  attempts (transportSend cf ep k m) maxAttempts

/-! ### What a send places -/

/-- The copies of `m` that a step puts into the ring. -/
def placing (m : Message) (v : OwnStep Mem Label) : ℤ :=
  (v.after.ring.log.count m : ℤ) - v.before.ring.log.count m

/-- A step that gives no ticket away. -/
def SameLog (s s' : Mem) : Prop := s'.ring.log = s.ring.log

abbrev LogOnly {α : Type} (p : Call α) : Prop := Quiet SameLog (fun _ => True) p

/-- Answers that stand for a copy in the ring. -/
def Placed (ret : ℤ) : Prop := ret = ubCommOk ∨ ret = ubCommSendCongested

instance (ret : ℤ) : Decidable (Placed ret) := inferInstanceAs (Decidable (_ ∨ _))

/-- One copy if the answer says so, else none. -/
def Counted (n ret : ℤ) : Prop := (Placed ret ∧ n = 1) ∨ (¬ Placed ret ∧ n = 0)

section Sends

variable {m : Message} {α β : Type} {Q : ℤ → α → Prop}

theorem placing_sameLog (e : Label) (s s' : Mem) (_ : True) (h : SameLog s s') :
    placing m ⟨e, s, s'⟩ = 0 := by
  have h : s'.ring.log = s.ring.log := h
  simp [placing, h]

/-- What comes first leaves the log alone. -/
theorem costs_after {p : Call β} {k : β → Call α} (hp : LogOnly p)
    (hk : ∀ b, Costs (placing m) Q (k b)) : Costs (placing m) Q (p.bind k) :=
  hp.costs_bind placing_sameLog hk

theorem logOnly_load {ι : Type} {e : Label} {p : Place Mem ι} : LogOnly (loadAt e p) :=
  .read trivial fun _ => rfl

/-- Flow control gives no tickets away. -/
theorem FlowOnly.logOnly {p : Call α} (h : FlowOnly p) : LogOnly p :=
  h.mono (fun _ _ hs => hs.log) fun _ _ => trivial

/-- Congestion is reported by `0` or `1`. -/
theorem costs_sampleFlowState (sample : ℕ) :
    Costs (placing m) (fun n r => n = 0 ∧ Placed r) (sampleFlowState cf sample) := by
  rw [sampleFlowState]
  refine costs_after (flow_recordDepth _).logOnly fun _ => costs_after logOnly_load fun threshold => ?_
  split_ifs with hfull
  · refine costs_after logOnly_load fun congested => ?_
    split_ifs with hc
    · exact .ret ⟨rfl, .inr rfl⟩
    · exact costs_after (.cas trivial (fun _ => rfl) fun _ _ => rfl) fun _ => .ret ⟨rfl, .inr rfl⟩
  · refine costs_after logOnly_load fun congested => ?_
    split_ifs with hc
    · exact .ret ⟨rfl, .inl rfl⟩
    refine costs_after (.cas trivial (fun _ => rfl) fun _ _ => rfl) fun left => ?_
    split_ifs with hl
    · exact .ret ⟨rfl, .inl rfl⟩
    refine costs_after logOnly_load fun again => .ret ⟨rfl, ?_⟩
    split_ifs
    · exact .inr rfl
    · exact .inl rfl

theorem costs_flowResultAfterEnqueueCached (newTail n : ℕ) :
    Costs (placing m) (fun n r => n = 0 ∧ Placed r) (flowResultAfterEnqueueCached cf newTail n) := by
  rw [flowResultAfterEnqueueCached]
  refine costs_after (flow_cachedFlowThreshold _ n).logOnly fun threshold => ?_
  split_ifs with hz
  · exact .ret ⟨rfl, .inr rfl⟩
  refine costs_after logOnly_load fun cached => ?_
  split_ifs with hlow
  · exact .ret ⟨rfl, .inl rfl⟩
  refine costs_after (flow_refreshCachedThreshold n).logOnly fun _ => ?_
  refine costs_after logOnly_load fun fresh => ?_
  exact costs_after (.write trivial fun _ => rfl) fun _ => costs_sampleFlowState cf _

theorem costs_flowResultAfterEnqueue (newTail : ℕ) :
    Costs (placing m) (fun n r => n = 0 ∧ Placed r)
      (flowResultAfterEnqueue cf newTail localCachedHeadAt) := by
  rw [flowResultAfterEnqueue]
  refine costs_after logOnly_load fun threshold => costs_after logOnly_load fun cached => ?_
  split_ifs with hlow
  · exact .ret ⟨rfl, .inl rfl⟩
  refine costs_after logOnly_load fun fresh => ?_
  exact costs_after (.write trivial fun _ => rfl) fun _ => costs_sampleFlowState cf _

theorem logOnly_hasRoom (e : Label) {cachedHead : Place Mem ℕ} (currTail : ℕ)
    (hc : ∀ s v, SameLog s (cachedHead.set v s)) : LogOnly (hasRoom cf e cachedHead currTail) := by
  refine .bind logOnly_load fun cached => .ite ?_ trivial
  refine .bind logOnly_load fun fresh => .bind (.write trivial fun s => hc s fresh) fun _ => ?_
  exact .ite (.bind (flow_sampleFlowState cf _).logOnly fun _ => trivial) trivial

/-- A ticket is one copy. -/
theorem costs_reserve (currTail : ℕ) :
    Costs (placing m) (fun n r => n = if r.1 then 1 else 0) (reserve m currTail) := by
  intro t r ht
  cases ht with
  | @act _ _ _ _ s s' c b _ t hf h =>
    cases h
    dsimp only at hf
    split_ifs at hf with hc
    · cases hf
      simp [cost, placing]
    · cases hf
      simp [cost, placing]

theorem logOnly_copyIn (k i : ℕ) (bytes : List UInt8) (off : ℕ) : LogOnly (copyIn k i bytes off) := by
  induction bytes generalizing off with
  | nil => trivial
  | cons b bs ih => exact .bind (.write trivial fun _ => rfl) fun _ => ih (off + 1)

theorem logOnly_writeEntry (k : ℕ) : LogOnly (writeEntry cf m k) := by
  refine .bind (logOnly_copyIn ..) fun _ => .ite ?_ (.write trivial fun _ => rfl)
  exact .bind (logOnly_copyIn ..) fun _ => .write trivial fun _ => rfl

/-- After a copy has been placed, the answer says so. -/
theorem counted_of_placed {p : Call ℤ} (h : Costs (placing m) (fun n r => n = 0 ∧ Placed r) p) :
    Costs (placing m) (fun n r => Counted (1 + n) r) p :=
  h.mono fun n r hr => .inl ⟨hr.2, by rw [hr.1, add_zero]⟩

theorem counted_error {ret : ℤ} (h : ¬ Placed ret) : Counted 0 ret := .inr ⟨h, rfl⟩

theorem costs_enqueueLocal : Costs (placing m) Counted (enqueueLocal cf m) := by
  rw [enqueueLocal]
  split_ifs with hlen
  · exact .ret (counted_error (by decide))
  refine costs_after logOnly_load fun tail => ?_
  have hloop : Costs (placing m) (fun n r => n = if r.isSome then 1 else 0)
      (loop (reserveLocalRound cf m) tail) := by
    refine .loop (fun currTail => ?_) tail
    rw [reserveLocalRound]
    refine costs_after (logOnly_hasRoom cf _ _ fun _ _ => rfl) fun room => ?_
    split_ifs with hroom
    · exact .ret rfl
    refine .bind ((costs_reserve currTail).mono fun n taken hn => ?_)
    split_ifs with ht
    · exact .ret (by simp [Round, hn, ht])
    · exact .ret (by simp [Round, hn, ht])
  refine .bind (hloop.mono fun n ticket hn => ?_)
  cases ticket with
  | none =>
    obtain rfl : n = 0 := hn
    exact .ret (counted_error (by decide))
  | some k =>
    obtain rfl : n = 1 := hn
    refine costs_after (logOnly_writeEntry cf k) fun _ => ?_
    exact counted_of_placed (costs_flowResultAfterEnqueue cf _)

/-- The reservation loop ends with a ticket and one copy, or with an error and none. -/
theorem costs_reserveRemote (n : ℕ) (st : ℕ × ℕ) :
    Costs (placing m) (fun c r => Except.casesOn r (fun e => ¬ Placed e ∧ c = 0) fun _ => c = 1)
      (loop (reserveRemoteRound cf n m) st) := by
  refine .loop (fun st => ?_) st
  rw [reserveRemoteRound]
  split_ifs with hbusy
  · exact .ret ⟨by decide, rfl⟩
  refine costs_after (logOnly_hasRoom cf _ _ fun _ _ => rfl) fun room => ?_
  split_ifs with hroom
  · exact .ret ⟨by decide, rfl⟩
  refine .bind ((costs_reserve st.2).mono fun c taken hc => ?_)
  split_ifs with ht
  · exact .ret (by simp [Round, hc, ht])
  · exact .ret (by simp [Round, hc, ht])

theorem costs_enqueueRemote (n : ℕ) : Costs (placing m) Counted (enqueueRemote cf n m) := by
  rw [enqueueRemote]
  split_ifs with hlen
  · exact .ret (counted_error (by decide))
  refine costs_after logOnly_load fun tail => ?_
  refine .bind ((costs_reserveRemote cf n _).mono fun c ticket hc => ?_)
  cases ticket with
  | error e =>
    obtain ⟨he, rfl⟩ : ¬ Placed e ∧ c = 0 := hc
    exact .ret (counted_error he)
  | ok k =>
    obtain rfl : c = 1 := hc
    refine costs_after (logOnly_writeEntry cf k) fun _ => ?_
    exact counted_of_placed (costs_flowResultAfterEnqueueCached cf _ n)

theorem costs_getRemoteRing (n : ℕ) :
    Costs (placing m) (fun c r => c = 0 ∧ (r ≠ ubCommOk → ¬ Placed r)) (getRemoteRing n) := by
  rw [getRemoteRing]
  refine costs_after logOnly_load fun known => ?_
  split_ifs
  · exact .ret ⟨rfl, fun h => absurd rfl h⟩
  refine costs_after logOnly_load fun initialized => ?_
  split_ifs
  · exact .ret ⟨rfl, fun _ => by decide⟩
  refine costs_after logOnly_load fun offset => ?_
  split_ifs
  · exact .ret ⟨rfl, fun _ => by decide⟩
  exact costs_after (.write trivial fun _ => rfl) fun _ => .ret ⟨rfl, fun h => absurd rfl h⟩

theorem logOnly_resetShadowHead (n : ℕ) : LogOnly (resetShadowHead n) := by
  refine ⟨trivial, ?_, fun _ => trivial⟩
  intro s c s' b hf
  cases hf
  rfl

theorem costs_tryPopulateCache (n : ℕ) :
    Costs (placing m) (fun c r => c = 0 ∧ (r ≠ ubCommOk → ¬ Placed r)) (tryPopulateCache n) := by
  rw [tryPopulateCache]
  refine .bind ((costs_getRemoteRing n).mono fun c ret hc => ?_)
  obtain ⟨rfl, hret⟩ := hc
  split_ifs with hok
  · exact .ret ⟨rfl, hret⟩
  refine costs_after (logOnly_resetShadowHead n) fun _ => costs_after logOnly_load fun threshold => ?_
  refine costs_after (.write trivial fun _ => rfl) fun _ => costs_after logOnly_load fun version => ?_
  refine costs_after (.write trivial fun _ => rfl) fun _ => ?_
  exact costs_after (.write trivial fun _ => rfl) fun _ => .ret ⟨rfl, fun h => absurd rfl h⟩

theorem logOnly_lockShared (n k : ℕ) : LogOnly (lockShared n k) := by
  refine ⟨trivial, ?_, fun _ => trivial⟩
  intro s c s' b hf
  dsimp only at hf
  split_ifs at hf
  cases hf
  rfl

theorem logOnly_unlockShared (n k : ℕ) : LogOnly (unlockShared n k) := by
  refine ⟨trivial, ?_, fun _ => trivial⟩
  intro s c s' b hf
  cases hf
  rfl

theorem costs_send (n k : ℕ) : Costs (placing m) Counted (send cf n k m) := by
  rw [send]
  refine costs_after flow_choose.logOnly fun alive => ?_
  split_ifs with hdead
  · exact .ret (counted_error (by decide))
  refine costs_after (logOnly_lockShared n k) fun _ => costs_after logOnly_load fun ready => ?_
  have hpopulate : Costs (placing m) (fun c r => c = 0 ∧ (r ≠ ubCommOk → ¬ Placed r))
      (if ready then pure ubCommOk else tryPopulateCache n) := by
    split_ifs
    · exact .ret ⟨rfl, fun h => absurd rfl h⟩
    · exact costs_tryPopulateCache n
  refine .bind (hpopulate.mono fun c populated hc => ?_)
  obtain ⟨rfl, hret⟩ := hc
  split_ifs with hok
  · exact costs_after (logOnly_unlockShared n k) fun _ => .ret (counted_error (hret hok))
  refine .bind ((costs_enqueueRemote cf n).mono fun c ret hc => ?_)
  refine costs_after (logOnly_unlockShared n k) fun _ => .ret ?_
  simpa using hc

theorem not_placed_of_refusal {ep : Endpoint} {h : Header} {e : ℤ} (he : sendRefusal ep h = some e) :
    ¬ Placed e := by
  rw [sendRefusal] at he
  by_cases hsrc : ep.currentNodeId ≠ h.srcNodeId
  · rw [if_pos hsrc] at he
    cases he
    decide
  rw [if_neg hsrc] at he
  cases hp : ringPriority h with
  | none =>
    rw [hp] at he
    cases he
    decide
  | some prio =>
    rw [hp] at he
    dsimp only at he
    split_ifs at he
    all_goals
      cases he
      decide

/-- A send places one copy if it answers OK or CONGESTED, and none otherwise. -/
theorem costs_transportSend (ep : Endpoint) (k : ℕ) :
    Costs (placing m) Counted (transportSend cf ep k m) := by
  rw [transportSend]
  cases he : sendRefusal ep m.header with
  | some e => exact .ret (counted_error (not_placed_of_refusal he))
  | none =>
    dsimp only
    split_ifs
    · exact .ret (counted_error (by decide))
    · exact costs_enqueueLocal cf
    · exact costs_send cf _ k

end Sends

/-! ### What a retry reports -/

/-- Success says that the message is in the ring, and then it is there once. -/
def Truthful (m : Message) (t : List (OwnStep Mem Label)) (r : UbsAtomic.Result) : Prop :=
  (r = .success ↔ 0 < cost (placing m) t) ∧ (0 < cost (placing m) t → cost (placing m) t = 1)

section Retries

variable {m : Message}

/-- Each attempt with answer OK or CONGESTED placed a copy; only the last one can have got OK. -/
theorem costs_attempts {attempt : Call ℤ} (h : Costs (placing m) Counted attempt) (left : ℕ) :
    Costs (placing m) (fun n o => n = o.1.count ubCommOk + o.1.count ubCommSendCongested ∧
      o.1.count ubCommOk = if o.2 = .success then 1 else 0) (attempts attempt left) := by
  induction left with
  | zero => exact .ret ⟨rfl, rfl⟩
  | succ left ih =>
    rw [attempts]
    refine .bind (h.mono fun n ret hn => ?_)
    split_ifs with hok
    · subst hok
      have hn : n = 1 := by
        rcases hn with ⟨-, hn⟩ | ⟨hno, -⟩
        · exact hn
        · exact absurd (.inl rfl) hno
      exact .ret ⟨by rw [hn]; rfl, rfl⟩
    · refine .bind (ih.mono fun n' rest hrest => .ret ?_)
      obtain ⟨hcost, hcount⟩ := hrest
      have hok : ret ≠ ubCommOk := hok
      rw [List.count_cons_of_ne hok]
      refine ⟨?_, hcount⟩
      rcases hn with ⟨hplaced, rfl⟩ | ⟨hno, rfl⟩
      · obtain rfl : ret = ubCommSendCongested := hplaced.resolve_left hok
        rw [List.count_cons_self, hcost]
        omega
      · have hne : ret ≠ ubCommSendCongested := fun h => hno (.inr h)
        rw [List.count_cons_of_ne hne, hcost]
        omega

theorem truthful_iff {attempt : Call ℤ} (h : Costs (placing m) Counted attempt) {left : ℕ}
    {t : List (OwnStep Mem Label)} {rs : List ℤ} {r : UbsAtomic.Result}
    (ht : Traced (attempts attempt left) t (rs, r)) :
    Truthful m t r ↔ ubCommSendCongested ∉ rs := by
  obtain ⟨hcost, hcount⟩ := costs_attempts h left t (rs, r) ht
  dsimp only at hcost hcount
  rw [Truthful, hcost, hcount, ← List.count_eq_zero]
  by_cases hr : r = .success
  · simp only [hr, if_true, true_iff]
    omega
  · simp only [hr, if_false, false_iff]
    omega

end Retries

/-- A retry loop reports the truth exactly if no attempt was answered with CONGESTED, whatever other
    threads do meanwhile. -/
theorem retry_truthful_iff (cf : Conf) (up : Bool) (ep : Endpoint) (k : ℕ) (m : Message)
    (maxAttempts : ℕ) (t : List (OwnStep Mem Label)) (rs : List ℤ) (r : UbsAtomic.Result) :
    (Traced (sendWithRetry cf ep k m maxAttempts) t (rs, r) →
      (Truthful m t r ↔ ubCommSendCongested ∉ rs)) ∧
    (Traced (mutexSendWithRetry cf up ep k m maxAttempts) t (rs, r) →
      (Truthful m t r ↔ ubCommSendCongested ∉ rs)) := by
  refine ⟨truthful_iff (costs_transportSend cf ep k), fun ht => ?_⟩
  rw [mutexSendWithRetry] at ht
  split_ifs at ht with hup
  · cases ht
    simp [Truthful, cost]
  · exact truthful_iff (costs_transportSend cf ep k) ht

/-! ### A congested ring -/

theorem entrySize_lt : 64 < 4294967296 := by decide

/-- Eight entries of 64 bytes. -/
def eightSlots : Conf := ⟨3, 64, entrySize_lt⟩

/-- The header of a lock message without a body. -/
def bareHeader (tid : UInt64) (src : UInt8) : Header := ⟨tid, 0, 0, src, msgTypeDistLock, 0⟩

theorem length_bare (tid : UInt64) (src : UInt8) :
    ([] : List UInt8).length = (bareHeader tid src).bodyLength.toNat := rfl

/-- A grant from node 1 to node 0. -/
def grantToNodeZero : Message := ⟨bareHeader 7 1, [], length_bare 7 1⟩

def nodeOne : Endpoint := ⟨1, fun _ => true, true⟩

/-- A ring with `pending` messages that its consumer has not read yet. -/
def filledTo (pending : ℕ) : Mem :=
  { Mem.init eightSlots with
    ring := { RingBuffer.init eightSlots with
      tail := pending, log := List.replicate pending ⟨bareHeader 9 2, [], length_bare 9 2⟩ } }

/-- What an undisturbed call placed. -/
theorem traced_of_run {p : Call (List ℤ × UbsAtomic.Result)} {s s' : Mem}
    {o : List ℤ × UbsAtomic.Result}
    (m : Message) (h : Prog.Run p s o s') : ∃ t, Traced p t o ∧
      cost (placing m) t = (s'.ring.log.count m : ℤ) - s.ring.log.count m := by
  obtain ⟨t, ht, hl⟩ := run_iff_traced.mp h
  exact ⟨t, ht, hl.cost_sub (q := fun s => (s.ring.log.count m : ℤ))⟩

/-- Into an empty ring the first attempt goes through, and success is reported. -/
theorem retry_truthful_iff_empty : ∃ t,
    Traced (sendWithRetry eightSlots nodeOne 0 grantToNodeZero 5) t ([0], .success) ∧
    Traced (mutexSendWithRetry eightSlots true nodeOne 0 grantToNodeZero 5) t ([0], .success) ∧
    Truthful grantToNodeZero t .success := by
  have hexec : ((execBy (fun i => if i = 0 then 1 else 0) 200 0
      (sendWithRetry eightSlots nodeOne 0 grantToNodeZero 5) (filledTo 0)).any
        fun o => o.1 = ([0], UbsAtomic.Result.success)) = true := by decide +kernel
  obtain ⟨⟨_, s'⟩, hrun, ho⟩ := (Option.any_eq_true _ _).mp hexec
  obtain rfl := of_decide_eq_true ho
  obtain ⟨t, ht, -⟩ := traced_of_run grantToNodeZero (run_of_execBy hrun)
  have hiff := retry_truthful_iff eightSlots true nodeOne 0 grantToNodeZero 5 t [0] .success
  exact ⟨t, ht, ht, (hiff.1 ht).mpr (by decide)⟩

/-- With six messages pending, the first two attempts place a copy each and are answered with
    CONGESTED, the others find the ring full: two copies, and the report is an error. -/
theorem congested_sent_twice : ∃ t rs,
    Traced (sendWithRetry eightSlots nodeOne 0 grantToNodeZero 5) t (rs, .error) ∧
    Traced (mutexSendWithRetry eightSlots true nodeOne 0 grantToNodeZero 5) t (rs, .error) ∧
    cost (placing grantToNodeZero) t = 2 := by
  have hexec : ((execBy (fun i => if i = 0 ∨ i = 44 ∨ i = 80 ∨ i = 91 ∨ i = 102 then 1 else 0) 300 0
      (sendWithRetry eightSlots nodeOne 0 grantToNodeZero 5) (filledTo 6)).any fun o =>
        o.1 = ([1, 1, -4096, -4096, -4096], UbsAtomic.Result.error) ∧
          o.2.ring.log.count grantToNodeZero = 2 ∧
          (filledTo 6).ring.log.count grantToNodeZero = 0) = true := by decide +kernel
  obtain ⟨⟨_, s'⟩, hrun, ho⟩ := (Option.any_eq_true _ _).mp hexec
  obtain ⟨rfl, hafter, hbefore⟩ := of_decide_eq_true ho
  obtain ⟨t, ht, hcost⟩ := traced_of_run grantToNodeZero (run_of_execBy hrun)
  refine ⟨t, _, ht, ht, ?_⟩
  rw [hcost, hbefore, show s'.ring.log.count grantToNodeZero = 2 from hafter]
  rfl

end Ring

end UbsAtomic
