import UbsAtomic.Ring.Delivery
import UbsAtomic.Ring.Transport

/-! A consumer that shuts down and starts again on the same ring memory.

        epoch 0        │ forceFull │   down   │ publish │        epoch 1
        head grows     │           │          │ head = 0│
        shadow ≤ head  │           │          │         │  shadow ≤ head only if it was reset since

    A producer's `shadow_head` survives the restart unless PEER_EXIT was handled in time. Where it
    was, and nobody is sending while the ring is taken down, producers never overrun the ring. -/

namespace UbsAtomic

open Conc Conc.Prog

namespace Ring

/-- Reservations may be skipped and the consumer may restart. -/
def restartMode : Mode := ⟨false, false⟩

section Moves

variable {cf : Conf} {s : Mem} {γ : Actor → Ghost} {n i : ℕ} {h : Held}

/-! ### Producer nodes -/

theorem flow_lookup (n : ℕ) : FlowPlace (lookupAt n) := flow_cache fun _ _ => ⟨rfl, rfl⟩

theorem flow_cacheInitialized (n : ℕ) : FlowPlace (cacheInitializedAt n) :=
  flow_cache fun _ _ => ⟨rfl, rfl⟩

theorem flow_offset : FlowPlace offsetAt := fun _ _ =>
  ⟨rfl, rfl, rfl, rfl, rfl, fun _ => ⟨rfl, rfl⟩, rfl, rfl, rfl⟩

theorem flow_initialized : FlowPlace initializedAt := fun _ _ =>
  ⟨rfl, rfl, rfl, rfl, rfl, fun _ => ⟨rfl, rfl⟩, rfl, rfl, rfl⟩

theorem flow_peerExits (n : ℕ) : FlowPlace (peerExitsAt n) := fun _ _ =>
  ⟨rfl, rfl, rfl, rfl, rfl, fun _ => ⟨rfl, rfl⟩, rfl, rfl, rfl⟩

theorem flow_getRemoteRing (n : ℕ) : FlowOnly (getRemoteRing n) := by
  refine (flow_read _).bind fun known => .ite trivial ?_
  refine (flow_read _).bind fun initialized => .ite trivial ?_
  refine (flow_read _).bind fun offset => .ite trivial ?_
  exact ((flow_lookup n).store _).bind fun _ => trivial

theorem flow_lockUnique (n : ℕ) : FlowOnly (lockUnique n) := by
  refine ⟨trivial, fun s c s' b hf => ?_, fun _ => trivial⟩
  dsimp only at hf
  split at hf
  · cases hf
  · cases hf
    exact ⟨rfl, rfl, rfl, rfl, rfl, fun _ => ⟨rfl, rfl⟩, rfl, rfl, rfl⟩

theorem flow_unlockUnique (n : ℕ) : FlowOnly (unlockUnique n) := by
  refine ⟨trivial, fun s c s' b hf => ?_, fun _ => trivial⟩
  cases hf
  exact ⟨rfl, rfl, rfl, rfl, rfl, fun _ => ⟨rfl, rfl⟩, rfl, rfl, rfl⟩

/-- A shadow head of `0` is never ahead. -/
theorem Inv.resetShadow {md : Mode} (hi : Inv cf md s γ) (n : ℕ) :
    Inv cf md { s with
      caches := Function.update s.caches n { s.caches n with shadowHead := 0, epoch := s.epoch } } γ := by
  refine ⟨hi.ring, hi.out, fun n' => ?_, fun n' => ?_, hi.inside, fun n' i' hin => ?_, hi.sharer,
    fun hf => ⟨(hi.fixed hf).1, fun n' => ?_⟩, hi.quiet, hi.phase⟩ <;> by_cases hn : n' = n
  all_goals simp only [hn, Function.update_self, ne_eq, not_false_eq_true, Function.update_of_ne]
  · exact le_rfl
  · exact hi.past n'
  · exact fun _ => Nat.zero_le _
  · exact hi.shadow n'
  · exact hi.current n' i' hin
  · exact (hi.fixed hf).2 n'

theorem wp_resetShadowHead {t : Actor} {g : Ghost} {md : Mode} (hg : Moves t h g g) (n : ℕ) :
    wp (outline cf md) t (Moves t h) (resetShadowHead n) (fun _ g' => g' = g) g := by
  refine ⟨trivial, fun s γ hpre => ⟨trivial, fun c s' b hf => ?_⟩⟩
  cases hf
  refine ⟨g, hg, ?_, trivial, rfl⟩
  rw [hpre.update]
  exact hpre.inv.resetShadow n

/-- A sender comes under the lock of its cache or leaves it. -/
theorem Inv.share (hi : Inv cf restartMode s γ) {g : Ghost} {l : List (ℕ × ℕ)}
    (hold : ∀ k j m, γ (.remote n i) ≠ .writing k j m) (hg : ¬ g.Inside)
    (hin : g ≠ .idle → (n, i) ∈ l) (hl : ∀ p, p ≠ (n, i) → p ∈ s.sharers → p ∈ l) :
    Inv cf restartMode { s with sharers := l } (Function.update γ (.remote n i) g) := by
  have hcons : Function.update γ (.remote n i) g .consumer = γ .consumer :=
    Function.update_of_ne (by simp) _ _
  have hinside : ∀ u, (Function.update γ (.remote n i) g u).Inside → (γ u).Inside :=
    fun u => inside_of_update hg
  refine ⟨fun hd => (hi.ring hd).look (by simp) hold ?_ ?_, by rw [hcons]; exact hi.out, hi.past,
    hi.shadow, fun u hu => hi.inside u (hinside u hu), fun n' i' hu => hi.current n' i' (hinside _ hu),
    ?_, hi.fixed, fun hf u hu => hi.quiet hf u (hinside u hu), by rw [hcons]; exact hi.phase⟩
  · rintro k j m rfl
    exact hg trivial
  · rintro f rfl
    exact absurd trivial hg
  · intro hf n' i' hu
    by_cases hp : (n', i') = (n, i)
    · cases hp
      rw [Function.update_self] at hu
      exact hin hu
    · rw [Function.update_of_ne (by simpa using hp)] at hu
      exact hl _ hp (hi.sharer hf n' i' hu)

theorem wp_lockShared :
    wp (outline cf restartMode) (.remote n i) (Moves (.remote n i) h) (lockShared n i)
      (fun _ g => g = .locked) .idle := by
  refine ⟨trivial, fun s γ hpre => ⟨trivial, fun c s' b hf => ?_⟩⟩
  dsimp only at hf
  split at hf
  · cases hf
  · cases hf
    refine ⟨.locked, moves_of_ne (by simp) _ _, ?_, trivial, rfl⟩
    refine hpre.inv.share ?_ id ?_ ?_
    · simp [hpre.own]
    · simp
    · intro p _ hp
      exact List.mem_cons_of_mem _ hp

theorem wp_unlockShared {g : Ghost} (hg : g = .locked ∨ ∃ c, g = .seen c) :
    wp (outline cf restartMode) (.remote n i) (Moves (.remote n i) h) (unlockShared n i)
      (fun _ g => g = .idle) g := by
  refine ⟨by trivial, fun s γ hpre => ⟨trivial, fun c s' b hf => ?_⟩⟩
  cases hf
  refine ⟨.idle, moves_of_ne (by simp) _ _, ?_, trivial, rfl⟩
  refine hpre.inv.share ?_ id (by simp) ?_
  · intro k j m
    rw [hpre.own]
    rcases hg with rfl | ⟨c, rfl⟩ <;> simp
  · intro p hne hp
    exact (List.mem_erase_of_ne hne).mpr hp

theorem wp_tryPopulateCache :
    wp (outline cf restartMode) (.remote n i) (Moves (.remote n i) h) (tryPopulateCache n)
      (fun _ g => g = .locked) .locked := by
  have hst := stable cf restartMode (moves_of_ne (t := .remote n i) (h := h) (by simp) .locked .locked)
  refine (flow_getRemoteRing n).wp_bind hst fun ret => ?_
  split
  · exact ⟨trivial, rfl⟩
  refine wp_bind (wp_mono (wp_resetShadowHead (moves_of_ne (by simp) _ _) n) ?_)
  rintro _ _ - rfl
  refine (flow_read _).wp_bind hst fun threshold => ?_
  refine ((flow_threshold n).storeAt (.copyThreshold n) trivial _).wp_bind hst fun _ => ?_
  have hversion : FlowOnly (loadAt (.copyVersion n) thresholdVersionAt) := .read trivial .refl
  refine hversion.wp_bind hst fun version => ?_
  refine ((flow_thresholdVersion n).storeAt (.fillVersion n) trivial _).wp_bind hst fun _ => ?_
  exact ((flow_cacheInitialized n).store _).wp_bind hst fun _ => ⟨trivial, rfl⟩

theorem wp_send {m : Message} (hm : m.Fits cf) :
    wp (outline cf restartMode) (.remote n i) (Moves (.remote n i) h) (send cf n i m)
      (fun _ g => g = .idle) .idle := by
  have hst := fun g => stable cf restartMode (moves_of_ne (t := .remote n i) (h := h) (by simp) g g)
  refine flow_choose.wp_bind (hst _) fun alive => ?_
  split
  · exact ⟨trivial, rfl⟩
  refine wp_bind (wp_mono wp_lockShared ?_)
  rintro _ _ - rfl
  refine (flow_read _).wp_bind (hst _) fun ready => ?_
  have hpop : wp (outline cf restartMode) (.remote n i) (Moves (.remote n i) h)
      (if ready = true then pure ubCommOk else tryPopulateCache n) (fun _ g => g = .locked) .locked := by
    split
    · exact ⟨trivial, rfl⟩
    · exact wp_tryPopulateCache
  refine wp_bind (wp_mono hpop ?_)
  rintro populated _ - rfl
  split
  · refine wp_bind (wp_mono (wp_unlockShared (.inl rfl)) ?_)
    rintro _ _ - rfl
    exact ⟨trivial, rfl⟩
  refine wp_bind (wp_mono (wp_enqueueRemote (.inr ⟨rfl, rfl⟩) hm) ?_)
  rintro ret _ - ⟨c, rfl⟩
  refine wp_bind (wp_mono (wp_unlockShared (.inr ⟨c, rfl⟩)) ?_)
  rintro _ _ - rfl
  exact ⟨trivial, rfl⟩

theorem wp_onPeerExit {k : ℕ} :
    wp (outline cf restartMode) (.handler n k) (Moves (.handler n k) h) (onPeerExit n)
      (fun _ g => g = .idle) .idle := by
  have hst := stable cf restartMode (moves_of_ne (t := .handler n k) (h := h) (by simp) .idle .idle)
  have hreceive : FlowOnly (.act .step (fun s _ => if s.peerExits n = 0 then none
      else some ((peerExitsAt n).set (s.peerExits n - 1) s, ())) .ret) := by
    refine ⟨trivial, fun s c s' b hf => ?_, fun _ => trivial⟩
    dsimp only at hf
    split at hf
    · cases hf
    · cases hf
      exact flow_peerExits n s _
  refine hreceive.wp_bind hst fun _ => (flow_lockUnique n).wp_bind hst fun _ => ?_
  refine wp_bind (wp_mono (wp_resetShadowHead (moves_of_ne (by simp) _ _) n) ?_)
  rintro _ _ - rfl
  refine ((flow_threshold n).storeAt (.fillThreshold n) trivial _).wp_bind hst fun _ => ?_
  refine ((flow_thresholdVersion n).storeAt (.fillVersion n) trivial _).wp_bind hst fun _ => ?_
  refine ((flow_cacheInitialized n).store _).wp_bind hst fun _ => ?_
  refine ((flow_lookup n).store _).wp_bind hst fun _ => ?_
  exact (flow_unlockUnique n).wp hst

/-! ### The consumer node -/

variable {out : List (ℕ × List UInt8)} {ph : Phase}

/-- With nobody under a lock nobody is inside an enqueue. -/
theorem Inv.nobody_inside (hi : Inv cf restartMode s γ) (hs : s.sharers = []) (u : Actor) :
    ¬ (γ u).Inside := by
  intro hu
  obtain ⟨n, i, rfl⟩ := hi.quiet rfl u hu
  have hmem := hi.sharer rfl n i fun hidle => by rw [hidle] at hu; exact hu
  rw [hs] at hmem
  cases hmem

/-- The ring is taken out of service: every shadow head is out of date. -/
theorem Inv.forceFull (hi : Inv cf restartMode s γ) (hs : s.sharers = []) (head : ℕ) :
    Inv cf restartMode
      { s with ring := { s.ring with head := head }, epoch := s.epoch + 1, down := true }
      (Function.update γ .consumer (.consumer out (.building 0 0))) := by
  have hinside : ∀ u, ¬ (Function.update γ .consumer (.consumer out (.building 0 0)) u).Inside :=
    fun u hu => hi.nobody_inside hs u (inside_of_update id hu)
  refine ⟨by simp, by simp [restartMode], fun n => (hi.past n).trans (Nat.le_succ _), fun n hn => ?_,
    fun u hu => absurd hu (hinside u), fun n i hu => absurd hu (hinside _), fun hf n i hu => ?_,
    by simp [restartMode], fun _ u hu => absurd hu (hinside u), fun out' ph' hγ => ?_⟩
  · have hpast := hi.past n
    have hn : (s.caches n).epoch = s.epoch + 1 := hn
    omega
  · rw [Function.update_of_ne (by simp)] at hu
    exact hi.sharer hf n i hu
  · rw [Function.update_self] at hγ
    cases hγ
    simp [Phase.Down, Built]

/-- The constructor changes the ring while it is out of service. -/
theorem Inv.rebuild (hi : Inv cf restartMode s γ) {f j f' j' : ℕ} {r : RingBuffer}
    (hγ : γ .consumer = .consumer out (.building f j))
    (hr : Built cf s.ring (.building f j) → Built cf r (.building f' j')) :
    Inv cf restartMode { s with ring := r }
      (Function.update γ .consumer (.consumer out (.building f' j'))) := by
  obtain ⟨hdown, hbuilt⟩ := hi.phase out _ hγ
  have hd : s.down = true := hdown.mpr trivial
  have hinside : ∀ u, ¬ (Function.update γ .consumer (.consumer out (.building f' j')) u).Inside := by
    intro u hu
    have hup := hi.inside u (inside_of_update id hu)
    simp [hd] at hup
  refine ⟨by simp [hd], by simp [restartMode], hi.past, fun n hn => ?_,
    fun u hu => absurd hu (hinside u), fun n i hu => absurd hu (hinside _), fun hf n i hu => ?_,
    by simp [restartMode], fun _ u hu => absurd hu (hinside u), fun out' ph' hγ' => ?_⟩
  · have hle := hi.shadow n hn
    simp only [hd, if_true] at hle ⊢
    exact hle
  · rw [Function.update_of_ne (by simp)] at hu
    exact hi.sharer hf n i hu
  · rw [Function.update_self] at hγ'
    cases hγ'
    exact ⟨⟨fun _ => trivial, fun _ => hd⟩, hr hbuilt⟩

/-- The ring is published: it is empty. -/
theorem Inv.publish (hi : Inv cf restartMode s γ)
    (hγ : γ .consumer = .consumer out (.building 3 cf.capacity)) :
    Inv cf restartMode { s with initialized := true, down := false }
      (Function.update γ .consumer (.consumer out .idle)) := by
  obtain ⟨hdown, hhead, htail, hcached, hslots⟩ := hi.phase out _ hγ
  have hd : s.down = true := hdown.mpr trivial
  have hhead := hhead (by omega)
  obtain ⟨htail, hlog⟩ := htail (by omega)
  have hcached := hcached (by omega)
  have hinside : ∀ u, ¬ (Function.update γ .consumer (.consumer out .idle) u).Inside := by
    intro u hu
    have hup := hi.inside u (inside_of_update id hu)
    simp [hd] at hup
  refine ⟨fun _ => ⟨?_, ?_, ?_, ?_, ?_, ?_, fun u f hu => ?_, fun u k j m hu => ?_,
    fun u _ k j _ m _ hu => ?_, fun k hk hlt => ?_, fun out' ph' hγ' => ?_⟩, by simp [restartMode], hi.past,
    fun n hn => ?_, fun u hu => absurd hu (hinside u), fun n i hu => absurd hu (hinside _),
    fun hf n i hu => ?_, by simp [restartMode], fun _ u hu => absurd hu (hinside u),
    fun out' ph' hγ' => ?_⟩
  · simp [hhead]
  · simp [htail]
  · simp [hlog, htail]
  · simp [hlog]
  · intro i hlt
    simp [hslots i (by simpa using hlt)]
  · simp [hcached]
  · exact absurd (by rw [hu]; trivial) (hinside u)
  · exact absurd (by rw [hu]; trivial) (hinside u)
  · exact absurd (by rw [hu]; trivial) (hinside u)
  · have hlt : k < s.ring.tail := hlt
    omega
  · rw [Function.update_self] at hγ'
    cases hγ'
    trivial
  · have hle := hi.shadow n hn
    simp only [hd, if_true] at hle
    exact hle.trans (Nat.zero_le _)
  · rw [Function.update_of_ne (by simp)] at hu
    exact hi.sharer hf n i hu
  · rw [Function.update_self] at hγ'
    cases hγ'
    simp [Phase.Down, Built]

theorem wp_triggerForceFull :
    wp (outline cf restartMode) .consumer (Moves .consumer h) (triggerForceFull cf)
      (fun _ g => g = .consumer h.delivered (.building 0 0)) (.consumer h.delivered ph) := by
  refine (flow_read _).wp_bind (stable cf restartMode (moves_same _ _)) fun currTail => ?_
  refine ⟨trivial, fun s γ hpre => ⟨trivial, fun c s' b hf => ?_⟩⟩
  cases hf
  obtain ⟨ℓ, -, hcond⟩ := hpre.run
  exact ⟨_, moves_same _ (.building 0 0), hpre.inv.forceFull (hcond rfl) _, trivial, rfl⟩

theorem flow_broadcastPeerExit (ns : List ℕ) : FlowOnly (broadcastPeerExit ns) := by
  induction ns with
  | nil => trivial
  | cons n ns ih =>
    refine flow_choose.bind fun sent => .ite ?_ ih
    have hsend : FlowOnly (fetch (peerExitsAt n) (· + 1)) := .rmw trivial (flow_peerExits n)
    exact hsend.bind fun _ => ih

theorem wp_deinitAndBroadcast :
    wp (outline cf restartMode) .consumer (Moves .consumer h) (deinitAndBroadcast cf)
      (fun _ g => g = .consumer h.delivered (.building 0 0)) (.consumer h.delivered ph) := by
  have hst := stable cf restartMode (moves_same (h := h) .idle (.building 0 0))
  refine wp_bind (wp_mono wp_triggerForceFull ?_)
  rintro _ _ - rfl
  refine (flow_offset.store _).wp_bind hst fun _ => (flow_initialized.store _).wp_bind hst fun _ => ?_
  exact (flow_broadcastPeerExit _).wp hst

/-- One store of the constructor. -/
theorem wp_rebuild {f j : ℕ} {p : Place Mem ℕ} {v : ℕ} (f' j' : ℕ) (set : RingBuffer → RingBuffer)
    (hp : ∀ s, p.set v s = { s with ring := set s.ring })
    (hr : ∀ r, Built cf r (.building f j) → Built cf (set r) (.building f' j')) :
    wp (outline cf restartMode) .consumer (Moves .consumer h) (store p v)
      (fun _ g => g = .consumer h.delivered (.building f' j'))
      (.consumer h.delivered (.building f j)) := by
  refine wp_store trivial fun s γ hpre => ⟨trivial, _, moves_same _ (.building f' j'), ?_, trivial, rfl⟩
  rw [hp]
  exact hpre.inv.rebuild hpre.own (hr s.ring)

theorem wp_clearSlots (i count : ℕ) (hle : i + count = cf.capacity) :
    wp (outline cf restartMode) .consumer (Moves .consumer h) (clearSlots i count)
      (fun _ g => g = .consumer h.delivered (.building 3 cf.capacity))
      (.consumer h.delivered (.building 3 i)) := by
  induction count generalizing i with
  | zero =>
    obtain rfl : i = cf.capacity := by omega
    exact ⟨trivial, rfl⟩
  | succ count ih =>
    refine wp_bind (wp_mono (wp_rebuild 3 (i + 1)
      (fun r => r.setEntry i { r.entries i with readySeq := 0 }) (fun _ => rfl) ?_) ?_)
    · rintro r ⟨hhead, htail, hcached, hslots⟩
      refine ⟨hhead, htail, hcached, fun j hj => ?_⟩
      rw [setEntry_entries]
      split
      · rfl
      · exact hslots j (by omega)
    · rintro _ _ - rfl
      exact ih (i + 1) (by omega)

theorem wp_construct :
    wp (outline cf restartMode) .consumer (Moves .consumer h) (construct cf)
      (fun _ g => g = .consumer h.delivered (.building 3 cf.capacity))
      (.consumer h.delivered (.building 0 0)) := by
  have hst := stable cf restartMode (moves_same (h := h) .idle (.building 3 0))
  refine wp_bind (wp_mono (wp_rebuild 1 0 (fun r => { r with head := 0 }) (fun _ => rfl) ?_) ?_)
  · rintro r -
    simp [Built]
  rintro _ _ - rfl
  refine wp_bind (wp_mono (Q := fun _ g => g = .consumer h.delivered (.building 2 0)) ?_ ?_)
  · refine ⟨trivial, fun s γ hpre => ⟨trivial, fun c s' b hf => ?_⟩⟩
    cases hf
    refine ⟨_, moves_same _ (.building 2 0), hpre.inv.rebuild hpre.own ?_, trivial, rfl⟩
    rintro ⟨hhead, -⟩
    simp [Built, hhead]
  rintro _ _ - rfl
  refine wp_bind (wp_mono (wp_rebuild 3 0 (fun r => { r with localProducerCachedHead := 0 })
    (fun _ => rfl) ?_) ?_)
  · rintro r ⟨hhead, htail, -⟩
    simp [Built, hhead, htail]
  rintro _ _ - rfl
  have hthreshold : FlowPlace thresholdAt := flow_field fun _ _ => ⟨rfl, rfl, rfl, rfl, rfl⟩
  have hversion : FlowPlace thresholdVersionAt := flow_field fun _ _ => ⟨rfl, rfl, rfl, rfl, rfl⟩
  refine (hthreshold.store _).wp_bind hst fun _ => (hversion.store _).wp_bind hst fun _ => ?_
  refine (flow_congested.store _).wp_bind hst fun _ => (flow_maxDepth.store _).wp_bind hst fun _ => ?_
  exact wp_clearSlots 0 cf.capacity (by omega)

theorem wp_initTransport :
    wp (outline cf restartMode) .consumer (Moves .consumer h) (initTransport cf)
      (fun _ g => g = .consumer h.delivered .idle) (.consumer h.delivered (.building 0 0)) := by
  have hst := fun ph => stable cf restartMode (moves_same (h := h) .idle ph)
  refine wp_bind (wp_mono wp_construct ?_)
  rintro _ _ - rfl
  refine wp_bind (wp_mono (Q := fun _ g => g = .consumer h.delivered .idle) ?_ ?_)
  · refine (flow_offset.store _).wp_bind (hst _) fun _ => (flow_offset.store _).wp_bind (hst _) fun _ => ?_
    refine ⟨trivial, fun s γ hpre => ⟨trivial, fun c s' b hf => ?_⟩⟩
    cases hf
    exact ⟨_, moves_same _ .idle, hpre.inv.publish hpre.own, trivial, rfl⟩
  rintro _ _ - rfl
  exact (flow_stale.store _).wp (hst _)

end Moves

/-! ### Calls -/

inductive NodeOp where
  | send (m : Message)
  | peerExit
  | dequeue (bufferCap : ℕ)
  | deinit
  | init
  deriving DecidableEq

inductive NodeResult where
  | code (c : ℤ)
  | message (d : Option (ℕ × List UInt8))
  | handled
  | down
  | up
  deriving DecidableEq

variable (cf : Conf)

def nodeCode : Actor → NodeOp → Call NodeResult
  | .remote n i, .send m => do return .code (← send cf n i m)
  | .handler n _, .peerExit => do
    onPeerExit n
    return .handled
  | _, .dequeue bufferCap => do return .message (← dequeue cf bufferCap)
  | _, .deinit => do
    deinitAndBroadcast cf
    return .down
  | _, .init => do
    initTransport cf
    return .up
  | _, _ => return .handled

/-- The consumer reads and shuts down while its ring is in service, and then starts again. -/
def nodeAllowed : Actor → Held → NodeOp → Bool
  | .remote _ _, _, .send m => decide (m.Fits cf)
  | .handler _ _, _, .peerExit => true
  | .consumer, h, .dequeue bufferCap => h.up && decide (cf.maxMsgSize ≤ bufferCap)
  | .consumer, h, .deinit => h.up
  | .consumer, h, .init => !h.up
  | _, _, _ => false

def Held.note (h : Held) : NodeResult → Held
  | .message d => { h with delivered := h.delivered ++ d.toList }
  | .down => { h with up := false }
  | .up => { h with up := true }
  | _ => h

def nodes : Client Actor Mem Label NodeOp NodeResult Held where
  code := nodeCode cf
  allowed := nodeAllowed cf
  start := fun h _ => h
  finish := fun h _ r => h.note r

abbrev NodeRun := Config Actor Mem Label NodeOp NodeResult Held

def nodesStart : NodeRun := ⟨.init cf, fun _ => ⟨[], true⟩, fun _ => none⟩

/-! ### Every run -/

/-- Between two calls nobody is sending, and the consumer's ring is in service or not. -/
def NodeRest : Actor → Held → Ghost → Prop
  | .consumer, h, g => ∃ ph : Phase, g = .consumer h.delivered ph ∧
      if h.up then ph.Waiting else ph = .building 0 0
  | _, _, g => g = .idle

def nodeSpec : Spec Actor Mem Label NodeOp NodeResult Held Ghost where
  toOutline := outline cf restartMode
  rest := NodeRest
  moves := fun t h => Moves t h
  good := fun _ _ _ _ => True

variable {cf}

theorem NodeRest.moves {t : Actor} {h : Held} {g : Ghost} (hr : NodeRest t h g) : Moves t h g g := by
  rintro rfl
  obtain ⟨ph, rfl, -⟩ := hr
  exact moves_same .idle ph rfl

theorem nodes_proved : (nodeSpec cf).Proved (nodes cf) where
  stay := fun _ _ _ _ hm => hm
  idle := fun _ _ _ hr => ⟨trivial, hr.moves⟩
  start := fun _ _ _ _ _ hr => hr.moves
  call := by
    intro t h op g ha hr
    cases t with
    | consumer =>
      obtain ⟨ph, rfl, hph⟩ := hr
      cases op with
      | dequeue bufferCap =>
        obtain ⟨hup, hcap⟩ : h.up = true ∧ cf.maxMsgSize ≤ bufferCap := by
          simpa [nodes, nodeAllowed] using ha
        rw [if_pos hup] at hph
        refine wp_bind (wp_mono (wp_dequeue hcap hph) ?_)
        rintro r _ - ⟨ph, rfl, hw⟩
        refine ⟨trivial, trivial, ph, rfl, ?_⟩
        show if h.up = true then _ else _
        rwa [if_pos hup]
      | deinit =>
        refine wp_bind (wp_mono wp_deinitAndBroadcast ?_)
        rintro _ _ - rfl
        exact ⟨trivial, trivial, _, rfl, rfl⟩
      | init =>
        have hup : h.up = false := by simpa [nodes, nodeAllowed] using ha
        rw [if_neg (by simp [hup])] at hph
        subst hph
        refine wp_bind (wp_mono wp_initTransport ?_)
        rintro _ _ - rfl
        exact ⟨trivial, trivial, .idle, rfl, trivial⟩
      | _ => cases ha
    | remote n i =>
      cases op with
      | send m =>
        obtain rfl : g = .idle := hr
        refine wp_bind (wp_mono (wp_send (of_decide_eq_true ha)) ?_)
        rintro _ _ - rfl
        exact ⟨trivial, trivial, rfl⟩
      | _ => cases ha
    | handler n k =>
      cases op with
      | peerExit =>
        obtain rfl : g = .idle := hr
        refine wp_bind (wp_mono wp_onPeerExit ?_)
        rintro _ _ - rfl
        exact ⟨trivial, trivial, rfl⟩
      | _ => cases ha
    | localProducer i => cases op <;> cases ha

theorem holds_nodesStart : (nodeSpec cf).Holds (nodes cf) (nodesStart cf) atStart where
  inv := by
    refine ⟨fun _ => ringOk_init false not_inside_atStart rfl, by simp [restartMode], fun _ => le_rfl,
      fun _ _ => Nat.zero_le _, fun t ht => absurd ht (not_inside_atStart t),
      fun n k ht => absurd ht (not_inside_atStart _), ?_, by simp [restartMode],
      fun _ t ht => absurd ht (not_inside_atStart t), ?_⟩
    · intro _ n i hne
      exact absurd rfl hne
    · rintro out ph ⟨⟩
      simp [nodesStart, Mem.init, Phase.Down, Built]
  moved := fun t => ⟨atStart t, by rintro rfl; exact ⟨[], .idle, rfl, [], rfl, by simp⟩⟩
  idle := by
    intro t _
    cases t with
    | consumer => exact ⟨.idle, rfl, trivial⟩
    | _ => rfl
  busy := by simp [nodesStart]

/-- What a run has to meet: the ring is taken down while no send is under way; an enqueue begins
    while the ring is in service and after the producer's shadow head was reset in this
    incarnation of the ring; no store for a ticket comes after a later ticket was given the slot. -/
def Orderly (cf : Conf) (_ : Actor → Option Label) (_ : Actor) : Label → Mem → Prop
  | .forceFull, s => s.sharers = []
  | .useCache n, s => s.down = false ∧ (s.caches n).epoch = s.epoch
  | .write k, s | .commit k, s => s.ring.tail ≤ k + cf.capacity
  | _, _ => True

theorem Orderly.cond {ℓ : Actor → Option Label} {t : Actor} {e : Label} {s : Mem}
    (h : Orderly cf ℓ t e s) : Cond cf restartMode ℓ t e s := by
  cases e <;> simp_all [Cond, Orderly, restartMode]

/-- In every run that is orderly no shadow head is ahead of the head when an enqueue uses it, and
    no store for a ticket hits the slot of another ticket that has not been dequeued. -/
theorem no_overrun_of_orderly {x : NodeRun} {t : Actor}
    (hx : Config.Reach (nodes cf) (Orderly cf) (nodesStart cf) x) (ht : x.Meets (Orderly cf) t) :
    (∀ n, x.labels t = some (.useCache n) ∨ x.labels t = some (.shadow n) →
      (x.mem.caches n).shadowHead ≤ x.mem.ring.head) ∧
    ∀ k, x.labels t = some (.write k) ∨ x.labels t = some (.commit k) →
      ∀ k', x.mem.ring.head ≤ k' → k' < x.mem.ring.tail → cf.index k' = cf.index k → k' = k := by
  have hx' : Config.Reach (nodes cf) (nodeSpec cf).cond (nodesStart cf) x :=
    hx.mono fun _ _ _ _ => Orderly.cond
  have ht' : x.Meets (nodeSpec cf).cond t := fun e he => (ht e he).cond
  have hclaim : ∀ e, x.labels t = some e → Claim cf restartMode t e x.mem := fun e he =>
    nodes_proved.claims holds_nodesStart hx' ht' he
  refine ⟨fun n hn => ?_, fun k hk k' hhead htail hidx => ?_⟩
  · rcases hn with hn | hn
    · exact hclaim _ hn
    · exact hclaim _ hn
  · have hroom : k < x.mem.ring.head + cf.capacity ∧ x.mem.ring.tail ≤ k + cf.capacity := by
      rcases hk with hk | hk
      · exact ⟨(hclaim _ hk).1, ht _ hk⟩
      · exact ⟨(hclaim _ hk).1, ht _ hk⟩
    exact index_inj (by omega) (by omega) hidx

/-- Whether the step `t` stands before is orderly. -/
def orderlyHere (cf : Conf) (x : NodeRun) (t : Actor) : Bool :=
  match x.labels t with
  | some .forceFull => decide (x.mem.sharers = [])
  | some (.useCache n) => decide (x.mem.down = false ∧ (x.mem.caches n).epoch = x.mem.epoch)
  | some (.write k) | some (.commit k) => decide (x.mem.ring.tail ≤ k + cf.capacity)
  | _ => true

theorem meets_of_orderlyHere (x : NodeRun) (t : Actor) (h : orderlyHere cf x t = true) :
    x.Meets (Orderly cf) t := by
  intro e he
  rw [orderlyHere, he] at h
  cases e with
  | forceFull =>
    have hs : x.mem.sharers = [] := of_decide_eq_true h
    exact hs
  | useCache n =>
    have hs : x.mem.down = false ∧ (x.mem.caches n).epoch = x.mem.epoch := of_decide_eq_true h
    exact hs
  | write k | commit k =>
    have hs : x.mem.ring.tail ≤ k + cf.capacity := of_decide_eq_true h
    exact hs
  | _ => trivial

/-- Thread 0 of node 3 sends while the destination is alive. -/
def sendFromThree (m : Message) : List (Config.Piece Actor Label NodeOp) :=
  [.call (.remote 3 0) (.send m), .steps (.remote 3 0) [1], .finish (.remote 3 0)]

def receive : List (Config.Piece Actor Label NodeOp) :=
  [.call .consumer (.dequeue 20), .finish .consumer]

/-- The consumer shuts down, sends PEER_EXIT to node 3, and starts again. -/
def restart : List (Config.Piece Actor Label NodeOp) :=
  [.call .consumer .deinit, .steps .consumer [0, 0, 0, 0, 0, 0, 0, 1], .finish .consumer,
    .call .consumer .init, .finish .consumer]

/-- Two messages go through the ring, so that node 3 has the shadow head `1`. -/
def busyThenRestart : List (Config.Piece Actor Label NodeOp) :=
  sendFromThree (shortMessage 7 1) ++ receive ++ sendFromThree (shortMessage 7 2) ++ receive ++ restart

/-- PEER_EXIT arrives before the next send. -/
theorem no_overrun_of_orderly_handled :
    ∃ x, Config.Reach (nodes smallConf) (Orderly smallConf) (nodesStart smallConf) x ∧
      x.mem.epoch = 1 ∧ x.labels (.remote 3 0) = some (.shadow 3) ∧
      (x.mem.caches 3).shadowHead ≤ x.mem.ring.head := by
  have hrun : ∃ x, Config.Reach (nodes smallConf) (Orderly smallConf) (nodesStart smallConf) x ∧
      x.mem.epoch = 1 ∧ x.labels (.remote 3 0) = some (.shadow 3) :=
    Config.reach_of_runAll meets_of_orderlyHere
      (busyThenRestart ++ [.call (.handler 3 0) .peerExit, .finish (.handler 3 0),
        .call (.remote 3 0) (.send (shortMessage 7 4)), .steps (.remote 3 0) [1],
        .upTo (.remote 3 0) (.shadow 3)]) (by decide +kernel)
  obtain ⟨x, hx, hepoch, hlabel⟩ := hrun
  have hmeets : x.Meets (Orderly smallConf) (.remote 3 0) := by
    intro e he
    rw [hlabel] at he
    cases he
    trivial
  exact ⟨x, hx, hepoch, hlabel, (no_overrun_of_orderly hx hmeets).1 3 (.inr hlabel)⟩

/-- PEER_EXIT is late: the shadow head of node 3 belongs to the ring before the restart. Its third
    message goes into the slot of its first, which the consumer has not read. -/
theorem lateExit_violated :
    ∃ x, Config.Reachable (nodes smallConf) (nodesStart smallConf) x ∧
      x.mem.ring.head < (x.mem.caches 3).shadowHead ∧
      x.labels (.remote 3 0) = some (.write 2) ∧ x.mem.ring.head = 0 ∧
      Readable smallConf x.mem.ring 0 ∧ smallConf.index 0 = smallConf.index 2 :=
  Config.reachable_of_runAll
    (busyThenRestart ++ sendFromThree (shortMessage 7 4) ++ sendFromThree (shortMessage 7 5)
      ++ [.call (.remote 3 0) (.send (shortMessage 7 6)), .steps (.remote 3 0) [1],
        .upTo (.remote 3 0) (.write 2)]) (by decide +kernel)

end Ring

end UbsAtomic
