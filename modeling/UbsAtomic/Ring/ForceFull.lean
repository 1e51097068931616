import UbsAtomic.Ring.Enqueue
import UbsAtomic.Ring.Transport

/-! A ring that is forced full.

    `trigger_force_full` puts the head one lap behind the tail. A producer notices only if it looks:

        cached head + capacity ≤ tail     reads the forged head, refuses, keeps the forged head
        cached head + capacity > tail     takes the next ticket without a look at the head

    So the ring is closed to the producers whose copy of the head already makes it look full, and to
    nobody else. -/

namespace UbsAtomic

open Conc Conc.Prog

namespace Ring

/-! ### Producers after the forgery -/

/-- One enqueue: by the consumer's node, or by the node `node`. -/
structure Send where
  node : Option ℕ
  message : Message

def Send.code (cf : Conf) (e : Send) : Call ℤ :=
  match e.node with
  | none => enqueueLocal cf e.message
  | some n => enqueueRemote cf n e.message

/-- Threads that enqueue messages of a proper size and keep the codes they were given. -/
def senders (cf : Conf) : Client ℕ Mem Label Send ℤ (List ℤ) where
  code _ e := e.code cf
  allowed _ _ e := decide (e.message.Fits cf)
  start h _ := h
  finish h _ r := h ++ [r]

/-- Nobody has sent anything yet. -/
def idle (s : Mem) : Config ℕ Mem Label Send ℤ (List ℤ) := ⟨s, fun _ => [], fun _ => none⟩

/-- Producers are stopped: tail and slots are those of `s`, every call so far has said that the ring
    is full, and so will every call from here. -/
structure Stopped (cf : Conf) (s : Mem) (x : Config ℕ Mem Label Send ℤ (List ℤ)) : Prop where
  tail : x.mem.ring.tail = s.ring.tail
  entries : x.mem.ring.entries = s.ring.entries
  told : ∀ t, ∀ r ∈ x.held t, r = ubCommErrRingFull
  next : ∀ e : Send, e.message.Fits cf →
    Total (· = 0) (fun r s' => r = ubCommErrRingFull ∧ s'.ring.tail = s.ring.tail ∧
      s'.ring.entries = s.ring.entries) (e.code cf) x.mem

/-! ### Copies that look full -/

/-- To whoever believes that the head is at `h`, the ring is full. -/
def LooksFull (cf : Conf) (r : RingBuffer) (h : ℕ) : Prop := u64 (h + cf.capacity) ≤ r.tail

/-- The ring of `s`, to every producer and in truth full. -/
structure Closed (cf : Conf) (s s' : Mem) : Prop where
  tail : s'.ring.tail = s.ring.tail
  entries : s'.ring.entries = s.ring.entries
  head : LooksFull cf s.ring s'.ring.head
  here : LooksFull cf s.ring s'.ring.localProducerCachedHead
  there : ∀ n, LooksFull cf s.ring (s'.caches n).shadowHead

variable {cf : Conf} {s s' s'' : Mem} {m : Message} {e : Label} {p : Place Mem ℕ}

theorem Closed.same (h : Closed cf s s') (hs : SameRing s' s'') : Closed cf s s'' where
  tail := hs.tail.trans h.tail
  entries := hs.entries.trans h.entries
  head := hs.head ▸ h.head
  here := hs.cached ▸ h.here
  there n := (hs.shadow n).1 ▸ h.there n

/-- A copy of the head that a closed ring has. -/
structure Copy (cf : Conf) (s : Mem) (p : Place Mem ℕ) : Prop where
  full : ∀ s', Closed cf s s' → LooksFull cf s.ring (p.get s')
  set : ∀ s' h, Closed cf s s' → LooksFull cf s.ring h → Closed cf s (p.set h s')

theorem copy_local : Copy cf s localCachedHeadAt where
  full _ h := h.here
  set _ _ h hh := ⟨h.tail, h.entries, h.head, hh, h.there⟩

theorem copy_remote (n : ℕ) : Copy cf s (shadowHeadAt n) where
  full _ h := h.there n
  set s' h hc hh := by
    refine ⟨hc.tail, hc.entries, hc.head, hc.here, fun i => ?_⟩
    by_cases hi : i = n
    · subst hi
      simpa [shadowHeadAt, cacheField] using hh
    · simpa [shadowHeadAt, cacheField, hi] using hc.there i

/-! ### Every interleaving -/

/-- A closed ring stays closed; nobody has to remember anything. -/
def closedSpec (cf : Conf) (s : Mem) : Spec ℕ Mem Label Send ℤ (List ℤ) Unit where
  inv s' _ := Closed cf s s'
  lab _ _ := True
  cond _ _ _ _ := True
  claim _ _ _ := True
  rest _ h _ := ∀ r ∈ h, r = ubCommErrRingFull
  moves _ h _ _ := ∀ r ∈ h, r = ubCommErrRingFull
  good _ _ _ r := r = ubCommErrRingFull

variable {t : ℕ} {keep : Unit → Unit → Prop} (hkeep : keep () ())

include hkeep

theorem stable_closed : (closedSpec cf s).Stable t keep SameRing Label.Flow () where
  inv _ _ _ _ hs hi := hi.same hs
  rest := trivial
  lab _ _ := trivial
  claim _ _ _ := trivial
  keep := hkeep

/-- The full check finds the ring full, whichever head it asks. -/
theorem wp_hasRoom_closed (hp : Copy cf s p) :
    wp (closedSpec cf s).toOutline t keep (hasRoom cf e p s.ring.tail) (fun room _ => room = false)
      () := by
  refine wp_bind (wp_learn trivial trivial hkeep fun s₁ γ hpre => ⟨trivial, ?_⟩)
  have hcached : u64 (p.get s₁ + cf.capacity) ≤ s.ring.tail := hp.full s₁ hpre.inv
  rw [if_pos hcached]
  refine wp_bind (wp_learn trivial trivial hkeep fun s₂ γ hpre => ⟨trivial, ?_⟩)
  have hhead : u64 (headAt.get s₂ + cf.capacity) ≤ s.ring.tail := hpre.inv.head
  refine wp_bind (wp_store trivial fun s₃ γ hpre => ⟨trivial, (), hkeep, hp.set _ _ hpre.inv hhead,
    trivial, ?_⟩)
  rw [if_pos hhead]
  exact (flow_sampleFlowState cf cf.capacity).wp_bind (stable_closed hkeep) fun _ => ⟨trivial, rfl⟩

theorem wp_enqueueLocal_closed (hm : m.Fits cf) :
    wp (closedSpec cf s).toOutline t keep (enqueueLocal cf m)
      (fun r _ => r = ubCommErrRingFull) () := by
  rw [enqueueLocal, if_neg (fits hm)]
  refine wp_bind (wp_learn trivial trivial hkeep fun s₁ γ hpre => ⟨trivial, ?_⟩)
  have htail : tailAt.get s₁ = s.ring.tail := hpre.inv.tail
  rw [htail]
  refine wp_bind (wp_mono (wp_loop (fun currTail _ => currTail = s.ring.tail) trivial rfl ?_
    (Q := fun ticket _ => ticket = none)) ?_)
  · rintro _ _ rfl
    refine wp_bind (wp_mono (wp_hasRoom_closed hkeep copy_local) ?_)
    rintro _ _ - rfl
    exact ⟨trivial, rfl⟩
  · rintro _ _ - rfl
    exact ⟨trivial, rfl⟩

theorem wp_enqueueRemote_closed {n : ℕ} (hm : m.Fits cf) :
    wp (closedSpec cf s).toOutline t keep (enqueueRemote cf n m)
      (fun r _ => r = ubCommErrRingFull) () := by
  rw [enqueueRemote, if_neg (fits hm)]
  refine wp_bind (wp_learn trivial trivial hkeep fun s₁ γ hpre => ⟨trivial, ?_⟩)
  have htail : tailAt.get s₁ = s.ring.tail := hpre.inv.tail
  rw [htail]
  refine wp_bind (wp_mono (wp_loop (fun st _ => st = (0, s.ring.tail)) trivial rfl ?_
    (Q := fun ticket _ => ticket = .error ubCommErrRingFull)) ?_)
  · rintro _ _ rfl
    rw [reserveRemoteRound, if_neg (Nat.not_lt_zero _)]
    refine wp_bind (wp_mono (wp_hasRoom_closed hkeep (copy_remote n)) ?_)
    rintro _ _ - rfl
    exact ⟨trivial, rfl⟩
  · rintro _ _ - rfl
    exact ⟨trivial, rfl⟩

omit hkeep

theorem closed_proved (cf : Conf) (s : Mem) : (closedSpec cf s).Proved (senders cf) where
  stay _ _ _ _ h := h
  idle _ _ _ h := ⟨trivial, h⟩
  start _ _ _ _ _ h := h
  call t h e _ ha hrest := by
    have hm : e.message.Fits cf := of_decide_eq_true ha
    have hfull : wp (closedSpec cf s).toOutline t ((closedSpec cf s).moves t h) (e.code cf)
        (fun r _ => r = ubCommErrRingFull) () := by
      unfold Send.code
      split
      · exact wp_enqueueLocal_closed hrest hm
      · exact wp_enqueueRemote_closed hrest hm
    refine wp_mono hfull ?_
    rintro r _ - rfl
    refine ⟨rfl, ?_⟩
    intro r hr
    rcases List.mem_append.mp hr with hr | hr
    · exact hrest r hr
    · exact List.mem_singleton.mp hr

/-! ### One call alone -/

theorem sameRing_of_sampled (h : Sampled s s') : SameRing s s' := by
  obtain ⟨d, c, rfl⟩ := h
  exact ⟨rfl, rfl, rfl, rfl, rfl, fun _ => ⟨rfl, rfl⟩, rfl, rfl, rfl⟩

theorem total_hasRoom_closed (hp : Copy cf s p) (hs : Closed cf s s') :
    Total (· = 0) (fun room s'' => room = false ∧ Closed cf s s'') (hasRoom cf e p s.ring.tail)
      s' := by
  refine .bind (total_load rfl ?_)
  have hcached : u64 (p.get s' + cf.capacity) ≤ s.ring.tail := hp.full s' hs
  rw [if_pos hcached]
  refine .bind (total_load rfl (.bind (total_store rfl ?_)))
  have hhead : u64 (headAt.get s' + cf.capacity) ≤ s.ring.tail := hs.head
  rw [if_pos hhead]
  refine .bind ((total_sampleFlowState _).mono ?_)
  rintro r s'' ⟨-, hs''⟩
  exact .ret ⟨rfl, (hp.set _ _ hs hhead).same (sameRing_of_sampled hs'')⟩

theorem total_code_closed (hs : Closed cf s s') (e : Send) (hm : e.message.Fits cf) :
    Total (· = 0) (fun r s'' => r = ubCommErrRingFull ∧ s''.ring.tail = s.ring.tail ∧
      s''.ring.entries = s.ring.entries) (e.code cf) s' := by
  have htail : tailAt.get s' = s.ring.tail := hs.tail
  unfold Send.code
  split
  · rw [enqueueLocal, if_neg (fits hm)]
    refine .bind (total_load rfl ?_)
    rw [htail]
    refine .bind (total_loop (.bind ((total_hasRoom_closed copy_local hs).mono ?_)))
    rintro _ s'' ⟨rfl, hs''⟩
    exact .ret (.ret ⟨rfl, hs''.tail, hs''.entries⟩)
  · rw [enqueueRemote, if_neg (fits hm)]
    refine .bind (total_load rfl ?_)
    rw [htail]
    refine .bind (total_loop ?_)
    rw [reserveRemoteRound, if_neg (Nat.not_lt_zero _)]
    refine .bind ((total_hasRoom_closed (copy_remote _) hs).mono ?_)
    rintro _ s'' ⟨rfl, hs''⟩
    exact .ret (.ret ⟨rfl, hs''.tail, hs''.entries⟩)

/-- A producer whose copy of the head shows room takes a ticket. -/
theorem steps_take_open {α : Type} {full : α} {k : Bool × ℕ → Call α}
    (hnot : ¬ LooksFull cf s.ring (p.get s)) :
    ∃ q, Steps (do
      let room ← hasRoom cf e p s.ring.tail
      if room = false then
        return full
      let got ← reserve m s.ring.tail
      k got) s q (s.reserved m) := by
  refine ⟨k (true, s.ring.tail), .act (c := 0) rfl ?_⟩
  have hnot : ¬ u64 (p.get s + cf.capacity) ≤ s.ring.tail := hnot
  show Steps (Prog.bind (if u64 (p.get s + cf.capacity) ≤ s.ring.tail then _ else _) _) s _ _
  rw [if_neg hnot]
  exact .act (c := 0) (b := (true, s.ring.tail)) (if_pos ⟨rfl, rfl⟩) (.refl _ _)

theorem steps_enqueueLocal_open (hm : m.Fits cf)
    (hnot : ¬ LooksFull cf s.ring s.ring.localProducerCachedHead) :
    ∃ q, Steps (enqueueLocal cf m) s q (s.reserved m) := by
  have hround : ∃ q, Steps (reserveLocalRound cf m s.ring.tail) s q (s.reserved m) :=
    steps_take_open hnot
  obtain ⟨q, hq⟩ := hround
  rw [enqueueLocal, if_neg (fits hm)]
  exact ⟨_, .act (c := 0) rfl (.iter (hq.bind _))⟩

theorem steps_enqueueRemote_open {n : ℕ} (hm : m.Fits cf)
    (hnot : ¬ LooksFull cf s.ring (s.caches n).shadowHead) :
    ∃ q, Steps (enqueueRemote cf n m) s q (s.reserved m) := by
  have hround : ∃ q, Steps (reserveRemoteRound cf n m (0, s.ring.tail)) s q (s.reserved m) := by
    rw [reserveRemoteRound, if_neg (Nat.not_lt_zero _)]
    exact steps_take_open hnot
  obtain ⟨q, hq⟩ := hround
  rw [enqueueRemote, if_neg (fits hm)]
  exact ⟨_, .act (c := 0) rfl (.iter (hq.bind _))⟩

/-! ### Whom the forged head stops -/

/-- The memory with a forged head. -/
def Mem.forged (s : Mem) (head : ℕ) : Mem :=
  { s with
    ring := { s.ring with head := head }
    epoch := s.epoch + 1
    down := true }

theorem run_triggerForceFull (hr : Prog.Run (triggerForceFull cf) s () s') :
    ∃ head, head = u64Sub s.ring.tail cf.capacity ∧ s' = s.forged head := by
  cases hr.load with
  | act hf h =>
    cases h
    simp only [Option.some.injEq, Prod.mk.injEq] at hf
    exact ⟨_, rfl, hf.1.symm⟩

/-- One lap behind the tail, the ring is full. -/
theorem looksFull_lap {r : RingBuffer} (htail : r.tail < 18446744073709551616)
    (hcapacity : cf.capacity < 4294967296) : LooksFull cf r (u64Sub r.tail cf.capacity) := by
  rw [LooksFull, u64Sub, u64, u64]
  omega

theorem stopped_of_closed (h : Closed cf s s) {x : Config ℕ Mem Label Send ℤ (List ℤ)}
    (hx : Config.Reachable (senders cf) (idle s) x) : Stopped cf s x := by
  have h₀ : (closedSpec cf s).Holds (senders cf) (idle s) fun _ => () :=
    ⟨h, fun _ => ⟨(), by simp [closedSpec, idle]⟩, fun _ _ => by simp [closedSpec, idle],
      fun _ _ _ hp => by cases hp⟩
  obtain ⟨γ, hγ⟩ := (closed_proved cf s).sound h₀ hx
  have hc : Closed cf s x.mem := hγ.inv
  exact ⟨hc.tail, hc.entries, fun t => (hγ.moved t).elim fun _ h => h, fun e he => total_code_closed hc e he⟩

/-- Where producers are stopped, none can go on to a ticket. -/
theorem not_steps_of_stopped
    (hstop : ∀ x, Config.Reachable (senders cf) (idle s) x → Stopped cf s x) {e : Send}
    (hm : e.message.Fits cf) {q : Call ℤ} : ¬ Steps (e.code cf) s q (s.reserved e.message) := by
  intro hsteps
  have hcall : Config.Reachable (senders cf) (idle s)
      ⟨s, fun _ => [], Function.update (fun _ => none) 0 (some (e, e.code cf))⟩ := by
    refine .step (t := 0) (m := .call e) .init (fun _ _ => trivial) ?_
    simp [Config.step, idle, senders, hm]
  have hreach : Config.Reachable (senders cf) (idle s) _ :=
    hcall.steps (t := 0) (show _ = some (e, _) by simp) hsteps
  have htaken := (hstop _ hreach).tail
  exact Nat.succ_ne_self _ htaken

/-- Without a message that fits nobody calls. -/
theorem eq_idle_of_reachable (hmax : cf.maxMsgSize < msgHeaderLen)
    {x : Config ℕ Mem Label Send ℤ (List ℤ)} (hx : Config.Reachable (senders cf) (idle s) x) :
    x = idle s := by
  induction hx with
  | init => rfl
  | step _ _ hs ih =>
    subst ih
    cases Config.moves_of_step hs with
    | call _ ha =>
      have hm : Message.Fits cf _ := of_decide_eq_true ha
      unfold Message.Fits at hm
      omega
    | ret hp => cases hp
    | act hp _ => cases hp
    | iter hp => cases hp

theorem length_emptyBody : ([] : List UInt8).length = (0 : UInt32).toNat := rfl

/-- The smallest message there is. -/
def emptyMessage : Message := ⟨⟨0, 0, 0, 0, 0, 0⟩, [], length_emptyBody⟩

/-- Forcing a ring full stops the producers iff every copy of the head already makes the ring look
    full, since no other copy is replaced by the forged head. -/
theorem forceFull_stops_iff (cf : Conf) (s s₁ : Mem) (hcapacity : cf.capacity < 4294967296)
    (hle : s.ring.head ≤ s.ring.tail) (hroom : s.ring.tail ≤ u64 (s.ring.head + cf.capacity))
    (hlocal : s.ring.localProducerCachedHead ≤ s.ring.head)
    (hshadow : ∀ n, (s.caches n).shadowHead ≤ s.ring.head)
    (hrun : Prog.Run (triggerForceFull cf) s () s₁) :
    (∀ x, Config.Reachable (senders cf) (idle s₁) x → Stopped cf s₁ x) ↔
      cf.maxMsgSize < msgHeaderLen ∨
        s.ring.localProducerCachedHead + cf.capacity ≤ s.ring.tail ∧
          ∀ n, (s.caches n).shadowHead + cf.capacity ≤ s.ring.tail := by
  obtain ⟨head, hhead, rfl⟩ := run_triggerForceFull hrun
  have htail : s.ring.tail < 18446744073709551616 := hroom.trans_lt (u64_lt _)
  have hfit : s.ring.head + cf.capacity < 18446744073709551616 := by
    rw [u64] at hroom
    omega
  have hlap : LooksFull cf s.ring head := by
    rw [hhead]
    exact looksFull_lap htail hcapacity
  clear hroom hhead
  -- a copy that lags behind the head is so small that the sum does not wrap around
  have hlooks : ∀ h ≤ s.ring.head,
      LooksFull cf (s.forged head).ring h ↔ h + cf.capacity ≤ s.ring.tail := by
    intro h hh
    rw [LooksFull, u64, Nat.mod_eq_of_lt (by omega)]
    exact Iff.rfl
  constructor
  · intro hstop
    rcases Nat.lt_or_ge cf.maxMsgSize msgHeaderLen with hmax | hmax
    · exact .inl hmax
    have hm : emptyMessage.Fits cf := hmax
    refine .inr ⟨?_, fun n => ?_⟩
    · by_contra hnot
      obtain ⟨q, hq⟩ := steps_enqueueLocal_open (s := s.forged head) hm
        (mt (hlooks _ hlocal).mp hnot)
      exact not_steps_of_stopped hstop (e := ⟨none, emptyMessage⟩) hm hq
    · by_contra hnot
      obtain ⟨q, hq⟩ := steps_enqueueRemote_open (s := s.forged head) (n := n) hm
        (mt (hlooks _ (hshadow n)).mp hnot)
      exact not_steps_of_stopped hstop (e := ⟨some n, emptyMessage⟩) hm hq
  · rintro (hmax | ⟨hhere, hthere⟩) x hx
    · obtain rfl := eq_idle_of_reachable hmax hx
      refine ⟨rfl, rfl, fun _ _ hr => absurd hr List.not_mem_nil, fun e hm => ?_⟩
      unfold Message.Fits at hm
      omega
    · refine stopped_of_closed ⟨rfl, rfl, hlap, ?_, fun n => ?_⟩ hx
      · exact (hlooks _ hlocal).mpr hhere
      · exact (hlooks _ (hshadow n)).mpr (hthere n)

theorem exists_run_triggerForceFull (cf : Conf) (s : Mem) :
    ∃ s₁, Prog.Run (triggerForceFull cf) s () s₁ :=
  ⟨_, .act (c := 0) rfl (.act (c := 0) rfl (.ret _ _))⟩

/-- A ring of two slots, both taken. -/
def bothTaken : Mem :=
  { Mem.init smallConf with ring := { RingBuffer.init smallConf with tail := 2 } }

theorem forceFull_stops_bothTaken : ∃ s₁, Prog.Run (triggerForceFull smallConf) bothTaken () s₁ ∧
    ∀ x, Config.Reachable (senders smallConf) (idle s₁) x → Stopped smallConf s₁ x := by
  obtain ⟨s₁, hrun⟩ := exists_run_triggerForceFull smallConf bothTaken
  refine ⟨s₁, hrun, (forceFull_stops_iff smallConf bothTaken s₁ (by decide) (by decide) (by decide)
    (by decide) (fun _ => le_rfl) hrun).mpr (.inr ⟨by decide, fun _ => le_rfl⟩)⟩

/-- The same ring with one slot taken. -/
def oneTaken : Mem :=
  { Mem.init smallConf with ring := { RingBuffer.init smallConf with tail := 1 } }

/-- Nobody has used up the slots of the ring yet, so nobody looks at the forged head. -/
theorem forceFull_overlooked : ∃ s₁ x,
    (oneTaken.ring.head ≤ oneTaken.ring.tail ∧
      oneTaken.ring.tail ≤ u64 (oneTaken.ring.head + smallConf.capacity) ∧
      oneTaken.ring.localProducerCachedHead ≤ oneTaken.ring.head ∧
      ∀ n, (oneTaken.caches n).shadowHead ≤ oneTaken.ring.head) ∧
    Prog.Run (triggerForceFull smallConf) oneTaken () s₁ ∧
    Config.Reachable (senders smallConf) (idle s₁) x ∧ x.held 0 = [ubCommOk] ∧
    x.mem.ring.tail = s₁.ring.tail + 1 := by
  have hrun : Prog.Run (triggerForceFull smallConf) oneTaken ()
      (oneTaken.forged 18446744073709551615) :=
    .act (c := 0) rfl (.act (c := 0) rfl (.ret _ _))
  have hsent : ∃ x, Config.Reachable (senders smallConf)
      (idle (oneTaken.forged 18446744073709551615)) x ∧
      x.held 0 = [ubCommOk] ∧ x.mem.ring.tail = 2 :=
    Config.reachable_of_runAll
      [.call 0 ⟨none, shortMessage 7 1⟩, .finish 0] (by decide +kernel)
  obtain ⟨x, hx, hheld, htail⟩ := hsent
  exact ⟨_, x, ⟨by decide, by decide, by decide, fun _ => le_rfl⟩, hrun, hx, hheld, htail⟩

end Ring

end UbsAtomic
