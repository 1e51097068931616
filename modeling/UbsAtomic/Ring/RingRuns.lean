import UbsAtomic.Ring.RingInvariant

/-! The calls on the ring keep the invariant, in every interleaving.

    One argument serves three questions, told apart by a `Mode`: no reservation is ever skipped
    (`fifo`), and the consumer never restarts (`fixed`). What a run has to meet is a condition on
    the step about to be made. -/

namespace UbsAtomic

open Conc Conc.Prog

namespace Ring

structure Mode where
  fifo : Bool
  fixed : Bool

/-- Inside an enqueue. -/
def Ghost.Inside : Ghost → Prop
  | .seen _ | .writing _ _ _ => True
  | _ => False

/-- The ring is out of service. -/
def Phase.Down : Phase → Prop
  | .building _ _ => True
  | _ => False

/-- How far the constructor has come: `f` counters and `i` slots. -/
def Built (cf : Conf) (r : RingBuffer) : Phase → Prop
  | .building f i => (1 ≤ f → r.head = 0) ∧ (2 ≤ f → r.tail = 0 ∧ r.log = []) ∧
      (3 ≤ f → r.localProducerCachedHead = 0) ∧ ∀ j < min i cf.capacity, (r.entries j).readySeq = 0
  | _ => True

structure Inv (cf : Conf) (md : Mode) (s : Mem) (γ : Actor → Ghost) : Prop where
  ring : s.down = false → RingOk cf md.fifo s.ring γ
  out : md.fixed = true → ∀ out ph, γ .consumer = .consumer out ph → OutOk md.fifo s.ring out
  past : ∀ n, (s.caches n).epoch ≤ s.epoch
  shadow : ∀ n, (s.caches n).epoch = s.epoch →
    (s.caches n).shadowHead ≤ if s.down then 0 else s.ring.head
  inside : ∀ t, (γ t).Inside → s.down = false
  current : ∀ n k, (γ (.remote n k)).Inside → (s.caches n).epoch = s.epoch
  sharer : md.fixed = false → ∀ n k, γ (.remote n k) ≠ .idle → (n, k) ∈ s.sharers
  fixed : md.fixed = true → s.down = false ∧ ∀ n, (s.caches n).epoch = s.epoch
  quiet : md.fixed = false → ∀ t, (γ t).Inside → ∃ n k, t = .remote n k
  phase : ∀ out ph, γ .consumer = .consumer out ph →
    (s.down = true ↔ ph.Down) ∧ Built cf s.ring ph

/-- What a run has to meet: nothing is skipped, or no store for a ticket comes after a later ticket
    has taken the slot; a remote enqueue begins on the ring its shadow head belongs to; the ring is
    shut down while no send is under way. -/
def Cond (cf : Conf) (md : Mode) (_ : Actor → Option Label) (_ : Actor) : Label → Mem → Prop
  | .skip, _ => md.fifo = false
  | .write k, s | .commit k, s => md.fifo = false → s.ring.tail ≤ k + cf.capacity
  | .useCache n, s => md.fixed = false → s.down = false ∧ (s.caches n).epoch = s.epoch
  | .forceFull, s => md.fixed = false → s.sharers = []
  | _, _ => True

/-- What is true at a step: the slot of a ticket has been left by its previous message, and a shadow
    head is not ahead of the head. -/
def Claim (cf : Conf) (md : Mode) (_ : Actor) : Label → Mem → Prop
  | .write k, s | .commit k, s =>
    k < s.ring.head + cf.capacity ∧ (md.fifo = true → s.ring.head ≤ k)
  | .useCache n, s | .shadow n, s => (s.caches n).shadowHead ≤ s.ring.head
  | _, _ => True

/-- A thread before a store for a ticket is the writer of that ticket. -/
def Lab : Option Label → Ghost → Prop
  | some (.write k), g => ∃ j m, g = .writing k j m
  | some (.commit k), g => ∃ m, g = .writing k m.bytes.length m
  | _, _ => True

def outline (cf : Conf) (md : Mode) : Outline Actor Mem Label Ghost :=
  ⟨Inv cf md, Lab, Cond cf md, Claim cf md⟩

/-- What the consumer has been given, and whether its ring is in service. -/
structure Held where
  delivered : List (ℕ × List UInt8)
  up : Bool
  deriving DecidableEq

/-- The consumer's ghost is at most one delivery ahead of what it has been given. -/
def Moves (t : Actor) (h : Held) (_ g : Ghost) : Prop :=
  t = .consumer → ∃ out ph, g = .consumer out ph ∧ ∃ l, out = h.delivered ++ l ∧ l.length ≤ 1

/-! ### Steps that do not matter -/

/-- Only flow control changes. -/
structure SameRing (s s' : Mem) : Prop where
  head : s'.ring.head = s.ring.head
  tail : s'.ring.tail = s.ring.tail
  entries : s'.ring.entries = s.ring.entries
  cached : s'.ring.localProducerCachedHead = s.ring.localProducerCachedHead
  log : s'.ring.log = s.ring.log
  shadow : ∀ n, (s'.caches n).shadowHead = (s.caches n).shadowHead ∧
    (s'.caches n).epoch = (s.caches n).epoch
  sharers : s'.sharers = s.sharers
  epoch : s'.epoch = s.epoch
  down : s'.down = s.down

@[refl] theorem SameRing.refl (s : Mem) : SameRing s s :=
  ⟨rfl, rfl, rfl, rfl, rfl, fun _ => ⟨rfl, rfl⟩, rfl, rfl, rfl⟩

section Same

variable {cf : Conf} {fifo : Bool} {md : Mode} {γ : Actor → Ghost} {s s' : Mem}

theorem SameRing.readable (h : SameRing s s') {k : ℕ} (hr : Readable cf s.ring k) :
    Readable cf s'.ring k := by
  rwa [Readable, h.log, h.entries]

theorem SameRing.phaseOk (h : SameRing s s') {ph : Phase} (hp : PhaseOk cf fifo s.ring γ ph) :
    PhaseOk cf fifo s'.ring γ ph := by
  cases ph <;> simp only [PhaseOk, Readable, h.head, h.tail, h.log, h.entries] <;> exact hp

theorem SameRing.ringOk (h : SameRing s s') (hr : RingOk cf fifo s.ring γ) :
    RingOk cf fifo s'.ring γ where
  le := by rw [h.head, h.tail]; exact hr.le
  room := by rw [h.head, h.tail]; exact hr.room
  log := by rw [h.log, h.tail]; exact hr.log
  size := by rw [h.log]; exact hr.size
  seq := by rw [h.entries, h.tail]; exact hr.seq
  cached := by rw [h.cached, h.head]; exact hr.cached
  seen := by rw [h.head]; exact hr.seen
  writer := by rw [h.head, h.tail, h.log, h.entries]; exact hr.writer
  unique := hr.unique
  live := by
    rw [h.head, h.tail]
    intro k hk hlt
    exact (hr.live k hk hlt).imp_right (Or.imp_left h.readable)
  phase := fun out ph hγ => h.phaseOk (hr.phase out ph hγ)

theorem SameRing.outOk (h : SameRing s s') {out : List (ℕ × List UInt8)}
    (ho : OutOk fifo s.ring out) : OutOk fifo s'.ring out :=
  ⟨by rw [h.log]; exact ho.bytes, ho.order, by rw [h.head]; exact ho.past, by rw [h.head]; exact ho.all⟩

theorem SameRing.built (h : SameRing s s') {ph : Phase} (hb : Built cf s.ring ph) :
    Built cf s'.ring ph := by
  cases ph with
  | building f i => rwa [Built, h.head, h.tail, h.log, h.cached, h.entries]
  | _ => trivial

theorem Inv.same (hi : Inv cf md s γ) (h : SameRing s s') : Inv cf md s' γ where
  ring := by rw [h.down]; exact fun hd => h.ringOk (hi.ring hd)
  out := fun hf out ph hγ => h.outOk (hi.out hf out ph hγ)
  past := fun n => by rw [(h.shadow n).2, h.epoch]; exact hi.past n
  shadow := fun n => by rw [(h.shadow n).1, (h.shadow n).2, h.epoch, h.down, h.head]; exact hi.shadow n
  inside := by rw [h.down]; exact hi.inside
  current := fun n k hin => by rw [(h.shadow n).2, h.epoch]; exact hi.current n k hin
  sharer := by rw [h.sharers]; exact hi.sharer
  fixed := fun hf => by
    rw [h.down, h.epoch]
    exact ⟨(hi.fixed hf).1, fun n => by rw [(h.shadow n).2]; exact (hi.fixed hf).2 n⟩
  quiet := hi.quiet
  phase := fun out ph hγ => by
    rw [h.down]
    exact ⟨(hi.phase out ph hγ).1, h.built (hi.phase out ph hγ).2⟩

end Same

/-- The steps of flow control, among those that are spoken about. -/
def Label.Flow : Label → Prop
  | .write _ | .commit _ | .skip | .useCache _ | .shadow _ | .forceFull => False
  | _ => True

/-- A ghost that fits what the thread has been given does not notice flow control. -/
theorem stable (cf : Conf) (md : Mode) {t : Actor} {h : Held} {g : Ghost} (hg : Moves t h g g) :
    (outline cf md).Stable t (Moves t h) SameRing Label.Flow g where
  inv := fun _ _ _ _ hs hi => hi.same hs
  rest := trivial
  lab := by
    intro e he
    cases e <;> trivial
  claim := by
    intro e _ he
    cases e <;> trivial
  keep := hg

/-! ### Flow control -/

section Flow

/-- Flow control, step by step. -/
abbrev FlowOnly {α : Type} (p : Call α) : Prop := Quiet SameRing Label.Flow p

theorem flow_read {α : Type} (p : Place Mem α) : FlowOnly (load p) := .read trivial .refl

theorem flow_choose : FlowOnly choose :=
  ⟨trivial, fun s c s' b hf => by
    obtain ⟨rfl, -⟩ : s = s' ∧ c = b := by simpa using hf
    exact .refl s, fun _ => trivial⟩

/-- Places whose stores are flow control. -/
def FlowPlace {α : Type} (p : Place Mem α) : Prop := ∀ s v, SameRing s (p.set v s)

theorem flow_field {α : Type} {get : RingBuffer → α} {set : α → RingBuffer → RingBuffer}
    (h : ∀ r v, (set v r).head = r.head ∧ (set v r).tail = r.tail ∧ (set v r).entries = r.entries ∧
      (set v r).localProducerCachedHead = r.localProducerCachedHead ∧ (set v r).log = r.log) :
    FlowPlace (field get set) := fun _ v =>
  ⟨(h _ v).1, (h _ v).2.1, (h _ v).2.2.1, (h _ v).2.2.2.1, (h _ v).2.2.2.2, fun _ => ⟨rfl, rfl⟩,
    rfl, rfl, rfl⟩

theorem flow_cache {α : Type} {n : ℕ} {get : Cache → α} {set : α → Cache → Cache}
    (h : ∀ c v, (set v c).shadowHead = c.shadowHead ∧ (set v c).epoch = c.epoch) :
    FlowPlace (cacheField n get set) := fun s v => by
  refine ⟨rfl, rfl, rfl, rfl, rfl, fun n' => ?_, rfl, rfl, rfl⟩
  by_cases hn : n' = n
  · subst hn
    simpa [cacheField] using h _ v
  · simp [cacheField, hn]

theorem flow_maxDepth : FlowPlace maxDepthAt := flow_field fun _ _ => ⟨rfl, rfl, rfl, rfl, rfl⟩

theorem flow_congested : FlowPlace congestedAt := flow_field fun _ _ => ⟨rfl, rfl, rfl, rfl, rfl⟩

theorem flow_threshold (n : ℕ) : FlowPlace (cachedThresholdAt n) := flow_cache fun _ _ => ⟨rfl, rfl⟩

theorem flow_thresholdVersion (n : ℕ) : FlowPlace (cachedThresholdVersionAt n) :=
  flow_cache fun _ _ => ⟨rfl, rfl⟩

theorem flow_stale : FlowPlace staleAt := fun _ _ =>
  ⟨rfl, rfl, rfl, rfl, rfl, fun _ => ⟨rfl, rfl⟩, rfl, rfl, rfl⟩

theorem FlowPlace.storeAt {α : Type} {p : Place Mem α} (h : FlowPlace p) (e : Label) (he : e.Flow)
    (v : α) : FlowOnly (storeAt e p v) := .write he (h · v)

theorem FlowPlace.store {α : Type} {p : Place Mem α} (h : FlowPlace p) (v : α) :
    FlowOnly (store p v) := h.storeAt .step trivial v

theorem FlowPlace.cas {α : Type} [DecidableEq α] {p : Place Mem α} (h : FlowPlace p) (x v : α) :
    FlowOnly (cas p x v) := .cas trivial .refl fun s _ => h s v

theorem FlowPlace.casWeak {α : Type} [DecidableEq α] {p : Place Mem α} (h : FlowPlace p) (x v : α) :
    FlowOnly (casWeak p x v) := .casWeak trivial .refl (h · v)

variable (cf : Conf)

theorem flow_recordDepth (used : ℕ) : FlowOnly (recordDepth used) := by
  refine (flow_read _).bind fun old => .loop fun old => .ite ?_ trivial
  exact (flow_maxDepth.casWeak _ _).bind fun raised => .ite trivial trivial

theorem flow_sampleFlowState (sample : ℕ) : FlowOnly (sampleFlowState cf sample) := by
  refine (flow_recordDepth _).bind fun _ => (flow_read _).bind fun threshold => .ite ?_ ?_
  · refine (flow_read _).bind fun congested => .ite trivial ?_
    exact (flow_congested.cas _ _).bind fun _ => trivial
  · refine (flow_read _).bind fun congested => .ite trivial ?_
    refine (flow_congested.cas _ _).bind fun left => .ite trivial ?_
    exact (flow_read _).bind fun _ => trivial

theorem flow_approximateUsed : FlowOnly (approximateUsed cf) :=
  (flow_read _).bind fun _ => (flow_read _).bind fun _ => trivial

theorem flow_refreshCachedThreshold (n : ℕ) : FlowOnly (refreshCachedThreshold n) := by
  refine (flow_read _).bind fun remoteVersion => (flow_read _).bind fun version => ?_
  refine .ite ?_ (flow_read _)
  refine (flow_read _).bind fun threshold => ?_
  refine ((flow_threshold n).storeAt (.fillThreshold n) trivial _).bind fun _ => ?_
  exact ((flow_thresholdVersion n).storeAt (.fillVersion n) trivial _).bind fun _ => flow_read _

theorem flow_cachedFlowThreshold (newTail n : ℕ) : FlowOnly (cachedFlowThreshold newTail n) :=
  (flow_read _).bind fun _ => (flow_read _).bind fun _ =>
    .ite (flow_refreshCachedThreshold n) trivial

theorem flow_noticeDepth : FlowOnly (noticeDepth cf) := by
  refine (flow_read _).bind fun congested => .ite ?_ trivial
  exact (flow_approximateUsed cf).bind fun used => (flow_sampleFlowState cf used).bind fun _ => trivial

end Flow

/-! ### What a producer does to the invariant -/

/-- Who moves out of its enqueue was inside before, if anybody is now. -/
theorem inside_of_update {γ : Actor → Ghost} {t u : Actor} {g : Ghost} (hg : ¬ g.Inside)
    (hu : (Function.update γ t g u).Inside) : (γ u).Inside := by
  by_cases hut : u = t
  · subst hut
    rw [Function.update_self] at hu
    exact absurd hu hg
  · rwa [Function.update_of_ne hut] at hu

section Producer

variable {cf : Conf} {md : Mode} {s : Mem} {γ : Actor → Ghost} {t : Actor} {g : Ghost} {n k j : ℕ}
  {m : Message}

/-- A producer inside its enqueue changes the ring, behind `head`. -/
theorem Inv.producer (h : Inv cf md s γ) (ht : t ≠ .consumer) (hin : (γ t).Inside)
    {r : RingBuffer} (hr : RingOk cf md.fifo r (Function.update γ t g))
    (hhead : r.head = s.ring.head)
    (hout : ∀ out, OutOk md.fifo s.ring out → OutOk md.fifo r out) :
    Inv cf md { s with ring := r } (Function.update γ t g) := by
  have hcons : Function.update γ t g .consumer = γ .consumer :=
    Function.update_of_ne (Ne.symm ht) _ _
  have hinside : ∀ u, (Function.update γ t g u).Inside → (γ u).Inside := by
    intro u hu
    by_cases hut : u = t
    · subst hut
      exact hin
    · rwa [Function.update_of_ne hut] at hu
  refine ⟨fun _ => hr, fun hf out ph hγ => hout out (h.out hf out ph (hcons ▸ hγ)), h.past, ?_, ?_, ?_,
    ?_, h.fixed, ?_, ?_⟩
  · intro n hn
    show _ ≤ if s.down then 0 else r.head
    rw [hhead]
    exact h.shadow n hn
  · exact fun u hu => h.inside u (hinside u hu)
  · exact fun n k hu => h.current n k (hinside _ hu)
  · intro hf n k hu
    refine h.sharer hf n k fun hidle => ?_
    by_cases hut : .remote n k = t
    · subst hut
      rw [hidle] at hin
      exact hin
    · exact hu (by rw [Function.update_of_ne hut, hidle])
  · exact fun hf u hu => h.quiet hf u (hinside u hu)
  · intro out ph hγ
    have hp := h.phase out ph (hcons ▸ hγ)
    refine ⟨hp.1, ?_⟩
    cases ph with
    | building f i => exact absurd (hp.1.mpr trivial) (by simp [h.inside t hin])
    | _ => trivial

/-- A producer inside its enqueue sees some `head`. -/
theorem Inv.look (h : Inv cf md s γ) (ht : t ≠ .consumer) {f c : ℕ} (hγ : γ t = .seen f)
    (hc : c ≤ s.ring.head) : Inv cf md s (Function.update γ t (.seen c)) := by
  have hin : (γ t).Inside := by rw [hγ]; trivial
  refine h.producer ht hin ((h.ring (h.inside t hin)).look ht ?_ (by simp) ?_) rfl fun _ ho => ho
  · simp [hγ]
  · rintro f ⟨⟩
    exact hc

/-- The cached head a producer decides by, and the label of its reads. -/
structure CachedHead (cf : Conf) (md : Mode) (t : Actor) (e : Label) (p : Place Mem ℕ) : Prop where
  read : ∀ s γ, Inv cf md s γ → (γ t).Inside → Claim cf md t e s ∧ p.get s ≤ s.ring.head
  write : ∀ s γ v, Inv cf md s γ → (γ t).Inside → v ≤ s.ring.head → Inv cf md (p.set v s) γ
  lab : ∀ g, Lab (some e) g

theorem cachedHead_local (i : ℕ) :
    CachedHead cf md (.localProducer i) .step localCachedHeadAt where
  read := fun s γ h hin => ⟨trivial, (h.ring (h.inside _ hin)).cached⟩
  write := fun s γ v h hin hv => by
    have hr := h.ring (h.inside _ hin)
    have hr' : RingOk cf md.fifo { s.ring with localProducerCachedHead := v } γ :=
      ⟨hr.le, hr.room, hr.log, hr.size, hr.seq, hv, hr.seen, hr.writer, hr.unique, hr.live, hr.phase⟩
    rw [← Function.update_eq_self (.localProducer i) γ] at hr' ⊢
    exact h.producer (by simp) hin hr' rfl fun _ ho => ⟨ho.bytes, ho.order, ho.past, ho.all⟩
  lab := fun _ => trivial

theorem cachedHead_remote (n i : ℕ) :
    CachedHead cf md (.remote n i) (.shadow n) (shadowHeadAt n) where
  read := fun s γ h hin => by
    have := h.shadow n (h.current n i hin)
    rw [h.inside _ hin] at this
    exact ⟨this, this⟩
  write := fun s γ v h hin hv => by
    have hd := h.inside _ hin
    have hcache : ∀ n', (((shadowHeadAt n).set v s).caches n').epoch = (s.caches n').epoch := by
      intro n'
      by_cases hn : n' = n
      · subst hn
        simp [shadowHeadAt, cacheField]
      · simp [shadowHeadAt, cacheField, hn]
    refine ⟨h.ring, h.out, fun n' => ?_, fun n' => ?_, h.inside, fun n' k hin' => ?_, h.sharer,
      fun hf => ⟨(h.fixed hf).1, fun n' => ?_⟩, h.quiet, h.phase⟩
    · rw [hcache]
      exact h.past n'
    · rw [hcache]
      intro hn'
      show _ ≤ if s.down then 0 else s.ring.head
      by_cases hn : n' = n
      · subst hn
        simpa [shadowHeadAt, cacheField, hd] using hv
      · simpa [shadowHeadAt, cacheField, hn] using h.shadow n' hn'
    · rw [hcache]
      exact h.current n' k hin'
    · rw [hcache]
      exact (h.fixed hf).2 n'
  lab := fun _ => trivial

end Producer

/-! ### Enqueue -/

section Enqueue

variable {cf : Conf} {md : Mode} {t : Actor} {h : Held} {e : Label} {p : Place Mem ℕ} {f k j : ℕ}
  {m : Message}

theorem moves_of_ne (ht : t ≠ .consumer) (g g' : Ghost) : Moves t h g g' := fun hc => absurd hc ht

theorem wp_seeHead (ht : t ≠ .consumer) :
    wp (outline cf md) t (Moves t h) (load headAt) (fun v g => g = .seen v) (.seen f) :=
  wp_read trivial fun _ _ hpre => ⟨trivial, _, moves_of_ne ht _ _,
    hpre.inv.look ht hpre.own le_rfl, trivial, rfl⟩

theorem wp_seeCached (ht : t ≠ .consumer) (hp : CachedHead cf md t e p) :
    wp (outline cf md) t (Moves t h) (loadAt e p) (fun v g => g = .seen v) (.seen f) := by
  refine wp_read (hp.lab _) fun s γ hpre => ?_
  obtain ⟨hclaim, hle⟩ := hp.read s γ hpre.inv (by rw [hpre.own]; trivial)
  exact ⟨hclaim, _, moves_of_ne ht _ _, hpre.inv.look ht hpre.own hle, trivial, rfl⟩

theorem wp_storeCached (ht : t ≠ .consumer) (hp : CachedHead cf md t e p) (v : ℕ) :
    wp (outline cf md) t (Moves t h) (store p v) (fun _ g => g = .seen v) (.seen v) := by
  refine wp_store trivial fun s γ hpre => ⟨trivial, _, moves_of_ne ht _ _, ?_, trivial, rfl⟩
  have hin : (γ t).Inside := by rw [hpre.own]; trivial
  have hv := (hpre.inv.ring (hpre.inv.inside t hin)).seen t v hpre.own
  rw [hpre.update]
  exact hp.write s γ v hpre.inv hin hv

/-- The full check has seen a head with room for the ticket. -/
theorem wp_hasRoom (ht : t ≠ .consumer) (hp : CachedHead cf md t e p) (currTail : ℕ) :
    wp (outline cf md) t (Moves t h) (hasRoom cf e p currTail)
      (fun room g => ∃ c, g = .seen c ∧ (room = true → currTail < c + cf.capacity)) (.seen f) := by
  refine wp_bind (wp_mono (wp_seeCached ht hp) ?_)
  rintro cached _ - rfl
  split
  · refine wp_bind (wp_mono (wp_seeHead ht) ?_)
    rintro fresh _ - rfl
    refine wp_bind (wp_mono (wp_storeCached ht hp fresh) ?_)
    rintro _ _ - rfl
    split
    · exact (flow_sampleFlowState cf _).wp_bind (stable cf md (moves_of_ne ht _ _)) fun _ =>
        ⟨trivial, fresh, rfl, by simp⟩
    · rename_i hroom
      have hle := u64_le (fresh + cf.capacity)
      exact ⟨trivial, fresh, rfl, fun _ => by omega⟩
  · rename_i hroom
    have hle := u64_le (cached + cf.capacity)
    exact ⟨trivial, cached, rfl, fun _ => by omega⟩

/-- The compare-and-swap on `tail_` makes the producer the writer of its ticket. -/
theorem wp_reserve (ht : t ≠ .consumer) (hm : m.bytes.length ≤ cf.maxMsgSize) {currTail c : ℕ}
    (hc : currTail < c + cf.capacity) :
    wp (outline cf md) t (Moves t h) (reserve m currTail)
      (fun taken g => (taken.1 = true → g = .writing currTail 0 m) ∧
        (taken.1 = false → ∃ c, g = .seen c)) (.seen c) := by
  refine ⟨trivial, fun s γ hpre => ⟨trivial, fun choice s' b hf => ?_⟩⟩
  dsimp only at hf
  split at hf
  · rename_i hcond
    obtain ⟨rfl, -⟩ := hcond
    simp only [Option.some.injEq, Prod.mk.injEq] at hf
    obtain ⟨rfl, rfl⟩ := hf
    have hin : (γ t).Inside := by rw [hpre.own]; trivial
    have hr := (hpre.inv.ring (hpre.inv.inside t hin)).reserve ht hpre.own hc hm
    refine ⟨_, moves_of_ne ht _ _, hpre.inv.producer ht hin hr rfl fun _ ho => ho.append m, trivial, ?_⟩
    exact ⟨fun _ => rfl, by simp⟩
  · simp only [Option.some.injEq, Prod.mk.injEq] at hf
    obtain ⟨rfl, rfl⟩ := hf
    refine ⟨_, moves_of_ne ht _ _, ?_, trivial, by simp, fun _ => ⟨c, rfl⟩⟩
    rw [hpre.update]
    exact hpre.inv

/-- No later ticket has the slot when a store for ticket `k` comes. -/
theorem inTime {s : Mem} {γ : Actor → Ghost} {l : Label} (hl : l = .write k ∨ l = .commit k)
    (hpre : (outline cf md).Pre t l (.writing k j m) s γ) :
    RingOk cf md.fifo s.ring γ ∧ s.ring.tail ≤ k + cf.capacity := by
  have hr := hpre.inv.ring (hpre.inv.inside t (by rw [hpre.own]; trivial))
  refine ⟨hr, ?_⟩
  obtain ⟨ℓ, -, hcond⟩ := hpre.run
  cases hf : md.fifo with
  | true =>
    have := (hr.writer t k j m hpre.own).2.2.1 hf
    have := hr.room
    omega
  | false => rcases hl with rfl | rfl <;> exact hcond hf

/-- The previous message of the slot has been left behind. -/
theorem RingOk.claim {s : Mem} {γ : Actor → Ghost} (hr : RingOk cf md.fifo s.ring γ)
    (hγ : γ t = .writing k j m) :
    k < s.ring.head + cf.capacity ∧ (md.fifo = true → s.ring.head ≤ k) := by
  obtain ⟨hlt, -, hfifo, -⟩ := hr.writer t k j m hγ
  have := hr.room
  exact ⟨by omega, hfifo⟩

theorem OutOk.setEntry {fifo : Bool} {r : RingBuffer} {out : List (ℕ × List UInt8)}
    (ho : OutOk fifo r out) (i : ℕ) (e : Entry) : OutOk fifo (r.setEntry i e) out :=
  ⟨ho.bytes, ho.order, ho.past, ho.all⟩

/-- Copying the next bytes of the message. -/
theorem wp_copyIn (ht : t ≠ .consumer) (bs rest : List UInt8) (off : ℕ)
    (hbs : m.bytes.drop off = bs ++ rest) :
    wp (outline cf md) t (Moves t h) (copyIn k (cf.index k) bs off)
      (fun _ g => g = .writing k (off + bs.length) m) (.writing k off m) := by
  induction bs generalizing off with
  | nil => exact ⟨trivial, rfl⟩
  | cons b bs ih =>
    have hb : m.bytes[off]? = some b := by
      rw [← List.head?_drop, hbs]
      rfl
    have hrest : m.bytes.drop (off + 1) = bs ++ rest := by
      rw [← List.tail_drop, hbs]
      rfl
    refine wp_bind (wp_store ⟨off, m, rfl⟩ fun s γ hpre => ?_)
    obtain ⟨hr, hin⟩ := inTime (.inl rfl) hpre
    have hwriter := hr.writer t k off m hpre.own
    refine ⟨hr.claim hpre.own, .writing k (off + 1) m, moves_of_ne ht _ _, ?_, trivial, ?_⟩
    · refine hpre.inv.producer ht (by rw [hpre.own]; trivial) (hr.ownSlot ht hpre.own hin ?_ (by simp)
        (.inl ⟨off + 1, rfl, fun hk => ?_⟩)) rfl fun _ ho => ho.setEntry _ _
      · exact hr.seq _ (index_lt cf k)
      · obtain ⟨hseq, hw⟩ := hwriter.2.2.2 hk
        exact ⟨hseq, hw.succ hb⟩
    · rw [List.length_cons, show off + (bs.length + 1) = off + 1 + bs.length by omega]
      exact ih (off + 1) hrest

/-- Header, body and `ready_seq`. -/
theorem wp_writeEntry (ht : t ≠ .consumer) :
    wp (outline cf md) t (Moves t h) (writeEntry cf m k) (fun _ g => g = .seen 0)
      (.writing k 0 m) := by
  -- the last store publishes the ticket
  have hcommit : wp (outline cf md) t (Moves t h)
      (storeAt (.commit k) (readySeqAt (cf.index k)) (k + 1)) (fun _ g => g = .seen 0)
      (.writing k m.bytes.length m) := by
    refine wp_store ⟨m, rfl⟩ fun s γ hpre => ?_
    obtain ⟨hr, hin⟩ := inTime (.inr rfl) hpre
    have hwriter := hr.writer t k _ m hpre.own
    refine ⟨hr.claim hpre.own, _, moves_of_ne ht _ _, ?_, trivial, rfl⟩
    refine hpre.inv.producer ht (by rw [hpre.own]; trivial) (hr.ownSlot ht hpre.own hin hwriter.1 ?_
      (.inr ⟨by simp, fun hk => ⟨rfl, (hwriter.2.2.2 hk).2⟩⟩)) rfl fun _ ho => ho.setEntry _ _
    rintro f ⟨⟩
    exact Nat.zero_le _
  have hlen : m.bytes.length = msgHeaderLen + m.body.length := length_bytes m
  refine wp_bind (wp_mono (wp_copyIn ht m.header.bytes m.body 0 rfl) ?_)
  rintro _ _ - rfl
  rw [length_headerBytes, Nat.zero_add]
  split
  · refine wp_bind (wp_mono (wp_copyIn ht m.body [] msgHeaderLen ?_) ?_)
    · rw [Message.bytes, List.append_nil, ← length_headerBytes m.header, List.drop_left]
    · rintro _ _ - rfl
      rwa [← hlen]
  · rwa [show msgHeaderLen = m.bytes.length by omega]

theorem wp_flowResultAfterEnqueue (ht : t ≠ .consumer) (hp : CachedHead cf md t .step p)
    (newTail : ℕ) :
    wp (outline cf md) t (Moves t h) (flowResultAfterEnqueue cf newTail p)
      (fun _ g => ∃ c, g = .seen c) (.seen f) := by
  refine (flow_read _).wp_bind (stable cf md (moves_of_ne ht _ _)) fun threshold => ?_
  refine wp_bind (wp_mono (wp_seeCached ht hp) ?_)
  rintro cached _ - rfl
  split
  · exact ⟨trivial, cached, rfl⟩
  · refine wp_bind (wp_mono (wp_seeHead ht) ?_)
    rintro fresh _ - rfl
    refine wp_bind (wp_mono (wp_storeCached ht hp fresh) ?_)
    rintro _ _ - rfl
    exact wp_mono ((flow_sampleFlowState cf _).wp (stable cf md (moves_of_ne ht _ _))) fun _ g _ hg =>
      ⟨fresh, hg⟩

theorem wp_flowResultAfterEnqueueCached {n : ℕ} (ht : t ≠ .consumer)
    (hp : CachedHead cf md t (.shadow n) (shadowHeadAt n)) (newTail : ℕ) :
    wp (outline cf md) t (Moves t h) (flowResultAfterEnqueueCached cf newTail n)
      (fun _ g => ∃ c, g = .seen c) (.seen f) := by
  refine (flow_cachedFlowThreshold _ _).wp_bind (stable cf md (moves_of_ne ht _ _)) fun threshold => ?_
  split
  · exact ⟨trivial, f, rfl⟩
  refine wp_bind (wp_mono (wp_seeCached ht hp) ?_)
  rintro cached _ - rfl
  split
  · exact ⟨trivial, cached, rfl⟩
  · refine (flow_refreshCachedThreshold n).wp_bind (stable cf md (moves_of_ne ht _ _)) fun _ => ?_
    refine wp_bind (wp_mono (wp_seeHead ht) ?_)
    rintro fresh _ - rfl
    refine wp_bind (wp_mono (wp_storeCached ht hp fresh) ?_)
    rintro _ _ - rfl
    exact wp_mono ((flow_sampleFlowState cf _).wp (stable cf md (moves_of_ne ht _ _))) fun _ g _ hg =>
      ⟨fresh, hg⟩

/-- How a producer may begin an enqueue: from outside while the consumer never restarts, else under
    the lock of its cache. -/
def Ready (md : Mode) (g : Ghost) : Prop :=
  md.fixed = true ∧ (g = .idle ∨ ∃ f, g = .seen f) ∨ md.fixed = false ∧ g = .locked

theorem Ready.not_writing {g : Ghost} (hg : Ready md g) (k j : ℕ) (m : Message) :
    g ≠ .writing k j m := by
  rcases hg with ⟨-, rfl | ⟨f, rfl⟩⟩ | ⟨-, rfl⟩ <;> simp

/-- A producer comes in. -/
theorem Inv.enter {s : Mem} {γ : Actor → Ghost} (hi : Inv cf md s γ) (ht : t ≠ .consumer)
    (hg : Ready md (γ t)) (hup : s.down = false)
    (hcur : ∀ n i, t = .remote n i → (s.caches n).epoch = s.epoch)
    (hq : md.fixed = false → ∃ n i, t = .remote n i) :
    Inv cf md s (Function.update γ t (.seen 0)) := by
  have hcons : Function.update γ t (.seen 0) .consumer = γ .consumer :=
    Function.update_of_ne (Ne.symm ht) _ _
  have hinside : ∀ u, (Function.update γ t (.seen 0) u).Inside → u = t ∨ (γ u).Inside := by
    intro u hu
    by_cases hut : u = t
    · exact .inl hut
    · exact .inr (by rwa [Function.update_of_ne hut] at hu)
  refine ⟨fun hd => (hi.ring hd).look ht hg.not_writing (by simp) ?_, ?_, hi.past, hi.shadow,
    fun _ _ => hup, ?_, ?_, hi.fixed, ?_, ?_⟩
  · rintro f ⟨⟩
    exact Nat.zero_le _
  · rw [hcons]
    exact hi.out
  · intro n i hu
    rcases hinside _ hu with hut | hu
    · exact hcur n i hut.symm
    · exact hi.current n i hu
  · intro hf n i hu
    refine hi.sharer hf n i fun hidle => ?_
    by_cases hut : .remote n i = t
    · subst hut
      rw [hidle, Ready, hf] at hg
      simp at hg
    · exact hu (by rw [Function.update_of_ne hut, hidle])
  · intro hf u hu
    rcases hinside u hu with rfl | hu
    · exact hq hf
    · exact hi.quiet hf u hu
  · rw [hcons]
    exact hi.phase

theorem fits (hm : msgHeaderLen + m.body.length ≤ cf.maxMsgSize) :
    ¬ u32 (msgHeaderLen + m.body.length) > cf.maxMsgSize := by
  have := cf.maxMsgSize_lt
  rw [u32, Nat.mod_eq_of_lt (by omega)]
  omega

theorem wp_enqueueLocal {i : ℕ} {g : Ghost} (hf : md.fixed = true) (hg : Ready md g)
    (hm : msgHeaderLen + m.body.length ≤ cf.maxMsgSize) :
    wp (outline cf md) (.localProducer i) (Moves (.localProducer i) h) (enqueueLocal cf m)
      (fun _ g => ∃ c, g = .seen c) g := by
  have ht : Actor.localProducer i ≠ .consumer := by simp
  rw [enqueueLocal, if_neg (fits hm)]
  refine wp_bind (wp_read trivial fun s γ hpre => ⟨trivial, .seen 0, moves_of_ne ht _ _, ?_, trivial, ?_⟩)
  · exact hpre.inv.enter ht (by rwa [hpre.own]) (hpre.inv.fixed hf).1 (by simp) (by simp [hf])
  refine wp_bind (wp_mono (Q := fun ticket g => (ticket = none → ∃ c, g = .seen c) ∧
    ∀ k, ticket = some k → g = .writing k 0 m) ?_ ?_)
  · refine wp_loop (fun _ g => ∃ c, g = .seen c) trivial ⟨0, rfl⟩ ?_
    rintro currTail _ ⟨c, rfl⟩
    refine wp_bind (wp_mono (wp_hasRoom ht (cachedHead_local i) currTail) ?_)
    rintro room _ - ⟨c, rfl, hroom⟩
    split
    · exact ⟨trivial, fun _ => ⟨c, rfl⟩, by simp⟩
    refine wp_bind (wp_mono (wp_reserve ht (by rwa [length_bytes]) (hroom (eq_true_of_ne_false ‹_›))) ?_)
    rintro taken g' - ⟨htrue, hfalse⟩
    split
    · exact ⟨trivial, by simp, by rintro k ⟨⟩; exact htrue ‹_›⟩
    · exact ⟨trivial, hfalse (eq_false_of_ne_true ‹_›)⟩
  · rintro (_ | k) g' - ⟨hnone, hsome⟩
    · exact ⟨trivial, hnone rfl⟩
    · obtain rfl := hsome k rfl
      refine wp_bind (wp_mono (wp_writeEntry ht) ?_)
      rintro _ _ - rfl
      exact wp_flowResultAfterEnqueue ht (cachedHead_local i) _

theorem wp_enqueueRemote {n i : ℕ} {g : Ghost} (hg : Ready md g)
    (hm : msgHeaderLen + m.body.length ≤ cf.maxMsgSize) :
    wp (outline cf md) (.remote n i) (Moves (.remote n i) h) (enqueueRemote cf n m)
      (fun _ g => ∃ c, g = .seen c) g := by
  have ht : Actor.remote n i ≠ .consumer := by simp
  rw [enqueueRemote, if_neg (fits hm)]
  have hready : ∀ s γ, (outline cf md).Pre (.remote n i) (.useCache n) g s γ →
      s.down = false ∧ (s.caches n).epoch = s.epoch := by
    intro s γ hpre
    cases hf : md.fixed with
    | true => exact ⟨(hpre.inv.fixed hf).1, (hpre.inv.fixed hf).2 n⟩
    | false =>
      obtain ⟨ℓ, -, hcond⟩ := hpre.run
      exact hcond hf
  refine wp_bind (wp_read trivial fun s γ hpre => ⟨?_, .seen 0, moves_of_ne ht _ _, ?_, trivial, ?_⟩)
  · have hle := hpre.inv.shadow n (hready s γ hpre).2
    rw [(hready s γ hpre).1] at hle
    exact hle
  · have hready := hready s γ hpre
    refine hpre.inv.enter ht (by rwa [hpre.own]) hready.1 ?_ fun _ => ⟨n, i, rfl⟩
    rintro n' i' ⟨⟩
    exact hready.2
  refine wp_bind (wp_mono (Q := fun ticket g => (∀ e, ticket = .error e → ∃ c, g = .seen c) ∧
    ∀ k, ticket = .ok k → g = .writing k 0 m) ?_ ?_)
  · refine wp_loop (fun _ g => ∃ c, g = .seen c) trivial ⟨0, rfl⟩ ?_
    rintro st _ ⟨c, rfl⟩
    rw [reserveRemoteRound]
    split
    · exact ⟨trivial, fun _ _ => ⟨c, rfl⟩, by simp⟩
    refine wp_bind (wp_mono (wp_hasRoom ht (cachedHead_remote n i) st.2) ?_)
    rintro room _ - ⟨c, rfl, hroom⟩
    split
    · exact ⟨trivial, fun _ _ => ⟨c, rfl⟩, by simp⟩
    refine wp_bind (wp_mono (wp_reserve ht (by rwa [length_bytes]) (hroom (eq_true_of_ne_false ‹_›))) ?_)
    rintro taken g' - ⟨htrue, hfalse⟩
    split
    · exact ⟨trivial, by simp, by rintro k ⟨⟩; exact htrue ‹_›⟩
    · exact ⟨trivial, hfalse (eq_false_of_ne_true ‹_›)⟩
  · rintro (e | k) g' - ⟨hnone, hsome⟩
    · exact ⟨trivial, hnone e rfl⟩
    · obtain rfl := hsome k rfl
      refine wp_bind (wp_mono (wp_writeEntry ht) ?_)
      rintro _ _ - rfl
      exact wp_flowResultAfterEnqueueCached ht (cachedHead_remote n i) _

end Enqueue

/-! ### Dequeue -/

section Dequeue

variable {cf : Conf} {md : Mode} {h : Held} {k : ℕ} {m : Message} {ph ph' : Phase}

/-- Between two messages. -/
def Phase.Waiting : Phase → Prop
  | .idle | .standing _ | .claimed _ => True
  | _ => False

theorem Phase.Waiting.not_passes (hp : ph.Waiting) : ¬ ph.Passes := by
  cases ph <;> first | exact id | exact hp.elim

theorem Phase.Waiting.not_down (hp : ph.Waiting) : ¬ ph.Down := by
  cases ph <;> first | exact id | exact hp.elim

theorem moves_consumer (g : Ghost) (ph : Phase) {l : List (ℕ × List UInt8)} (hl : l.length ≤ 1) :
    Moves .consumer h g (.consumer (h.delivered ++ l) ph) := fun _ => ⟨_, _, rfl, l, rfl, hl⟩

theorem moves_same (g : Ghost) (ph : Phase) : Moves .consumer h g (.consumer h.delivered ph) :=
  fun _ => ⟨_, _, rfl, [], by simp, by simp⟩

/-- The consumer moves, and the ring with it. -/
theorem Inv.consume {s : Mem} {γ : Actor → Ghost} {out out' : List (ℕ × List UInt8)}
    (hi : Inv cf md s γ) (hγ : γ .consumer = .consumer out ph) (hup' : ¬ ph'.Down)
    (hup : ¬ ph.Down) {r : RingBuffer}
    (hr : RingOk cf md.fifo s.ring γ →
      RingOk cf md.fifo r (Function.update γ .consumer (.consumer out' ph')))
    (hhead : s.ring.head ≤ r.head)
    (hout : OutOk md.fifo s.ring out → OutOk md.fifo r out') :
    Inv cf md { s with ring := r } (Function.update γ .consumer (.consumer out' ph')) := by
  have hd : s.down = false := eq_false_of_ne_true fun hd => hup ((hi.phase out ph hγ).1.mp hd)
  have hinside : ∀ u, (Function.update γ .consumer (.consumer out' ph') u).Inside → (γ u).Inside :=
    fun u => inside_of_update id
  refine ⟨fun _ => hr (hi.ring hd), fun hf out₁ ph₁ h₁ => ?_, hi.past, fun n hn => ?_,
    fun u hu => hi.inside u (hinside u hu), fun n i hu => hi.current n i (hinside _ hu), ?_, hi.fixed,
    fun hf u hu => hi.quiet hf u (hinside u hu), fun out₁ ph₁ h₁ => ?_⟩
  · rw [Function.update_self] at h₁
    cases h₁
    exact hout (hi.out hf out ph hγ)
  · have := hi.shadow n hn
    simp only [hd] at this ⊢
    exact this.trans hhead
  · intro hf n i hu
    exact hi.sharer hf n i (by rwa [Function.update_of_ne (by simp)] at hu)
  · rw [Function.update_self] at h₁
    cases h₁
    refine ⟨⟨fun hd' => absurd hd' (by simp [hd]), fun hp => absurd hp hup'⟩, ?_⟩
    cases ph' with
    | building f i => exact absurd trivial hup'
    | _ => trivial

/-- The consumer looks around. -/
theorem Inv.stand {s : Mem} {γ : Actor → Ghost} {out : List (ℕ × List UInt8)}
    (hi : Inv cf md s γ) (hγ : γ .consumer = .consumer out ph) (hw : ph.Waiting) (hup' : ¬ ph'.Down)
    (hph : RingOk cf md.fifo s.ring γ → PhaseOk cf md.fifo s.ring γ ph') :
    Inv cf md s (Function.update γ .consumer (.consumer out ph')) :=
  hi.consume hγ hup' hw.not_down (fun hr => hr.stand hγ hw.not_passes (hph hr)) le_rfl id

theorem wp_stand (hw : ph.Waiting) :
    wp (outline cf md) .consumer (Moves .consumer h) (load headAt)
      (fun v g => g = .consumer h.delivered (.standing v)) (.consumer h.delivered ph) :=
  wp_read trivial fun s _ hpre => ⟨trivial, _, moves_same _ (.standing s.ring.head),
    hpre.inv.stand hpre.own hw (by simp [Phase.Down]) fun _ => rfl, trivial, rfl⟩

/-- The ring of a consumer that stands at a ticket. -/
theorem standsAt {s : Mem} {γ : Actor → Ghost} {e : Label} {out : List (ℕ × List UInt8)}
    (hpre : (outline cf md).Pre .consumer e (.consumer out ph) s γ) (hup : ¬ ph.Down) :
    RingOk cf md.fifo s.ring γ ∧ PhaseOk cf md.fifo s.ring γ ph := by
  have hd : s.down = false :=
    eq_false_of_ne_true fun hd => hup ((hpre.inv.phase out ph hpre.own).1.mp hd)
  exact ⟨hpre.inv.ring hd, (hpre.inv.ring hd).phase out ph hpre.own⟩

theorem wp_checkReady :
    wp (outline cf md) .consumer (Moves .consumer h) (load (readySeqAt (cf.index k)))
      (fun seq g => (seq ≠ k + 1 → g = .consumer h.delivered (.standing k)) ∧
        (seq = k + 1 → ∃ m, g = .consumer h.delivered (.reading k m)))
      (.consumer h.delivered (.standing k)) := by
  refine wp_read trivial fun s γ hpre => ⟨trivial, ?_⟩
  obtain ⟨hr, rfl⟩ := standsAt hpre (by simp [Phase.Down])
  by_cases hs : (s.ring.entries (cf.index s.ring.head)).readySeq = s.ring.head + 1
  · obtain ⟨hlt, hread⟩ := hr.ready hpre.own (by simp [Phase.Passes]) hs
    obtain ⟨m, hl, hseq⟩ := hread
    refine ⟨.consumer h.delivered (.reading s.ring.head m), moves_same _ _, ?_, trivial,
      fun hne => absurd hs hne, fun _ => ⟨m, rfl⟩⟩
    exact hpre.inv.stand hpre.own trivial (by simp [Phase.Down]) fun _ => ⟨rfl, hlt, hl, m, hl, hseq⟩
  · refine ⟨_, moves_same _ _, ?_, trivial, fun _ => rfl, fun he => absurd he hs⟩
    rw [hpre.update]
    exact hpre.inv

theorem wp_checkClaimed :
    wp (outline cf md) .consumer (Moves .consumer h) (load tailAt)
      (fun v g => ∃ ph : Phase, g = .consumer h.delivered ph ∧ ph.Waiting ∧ (k < v → ph = .claimed k))
      (.consumer h.delivered (.standing k)) := by
  refine wp_read trivial fun s γ hpre => ⟨trivial, ?_⟩
  obtain ⟨hr, hk⟩ := standsAt hpre (by simp [Phase.Down])
  by_cases hlt : k < s.ring.tail
  · exact ⟨_, moves_same _ (.claimed k),
      hpre.inv.stand hpre.own trivial (by simp [Phase.Down]) fun _ => ⟨hk, hlt⟩, trivial, _, rfl,
      trivial, fun _ => rfl⟩
  · refine ⟨_, moves_same _ (.standing k), ?_, trivial, _, rfl, trivial, fun hv => absurd hv hlt⟩
    rw [hpre.update]
    exact hpre.inv

/-- The ticket at `head` is skipped: first its slot … -/
theorem wp_skipSlot :
    wp (outline cf md) .consumer (Moves .consumer h) (storeAt .skip (readySeqAt (cf.index k)) 0)
      (fun _ g => g = .consumer h.delivered (.skipping k)) (.consumer h.delivered (.claimed k)) := by
  refine wp_store trivial fun s γ hpre => ⟨trivial, _, moves_same _ (.skipping k), ?_, trivial, rfl⟩
  obtain ⟨-, hk, hlt⟩ := standsAt hpre (by simp [Phase.Down])
  obtain ⟨ℓ, -, hfifo⟩ := hpre.run
  exact hpre.inv.consume hpre.own (by simp [Phase.Down]) (by simp [Phase.Down])
    (fun hr => hr.clear hpre.own hk hlt trivial ⟨hk, hlt, hfifo⟩) le_rfl fun ho => ho.setEntry _ _

/-- … then `head`. -/
theorem wp_skipHead :
    wp (outline cf md) .consumer (Moves .consumer h) (store headAt (k + 1))
      (fun _ g => g = .consumer h.delivered .idle) (.consumer h.delivered (.skipping k)) := by
  refine wp_store trivial fun s γ hpre => ⟨trivial, _, moves_same _ .idle, ?_, trivial, rfl⟩
  obtain ⟨-, hk, hlt, hfifo⟩ := standsAt hpre (by simp [Phase.Down])
  refine hpre.inv.consume hpre.own (by simp [Phase.Down]) (by simp [Phase.Down])
    (fun hr => hr.advance hpre.own hk hlt (by simp [hfifo]) _) (by rw [hk]; exact Nat.le_succ k) ?_
  rw [hfifo]
  exact fun ho => ho.skip hk

theorem wp_trySkip :
    wp (outline cf md) .consumer (Moves .consumer h) (trySkipStaleReservedEntry cf k)
      (fun _ g => ∃ ph : Phase, g = .consumer h.delivered ph ∧ ph.Waiting)
      (.consumer h.delivered (.standing k)) := by
  have hst : ∀ ph, (outline cf md).Stable .consumer (Moves .consumer h) SameRing Label.Flow
      (.consumer h.delivered ph) := fun ph => stable cf md (moves_same _ _)
  refine wp_bind (wp_mono wp_checkClaimed ?_)
  rintro tail _ - ⟨ph, rfl, hw, hclaimed⟩
  split
  · exact ⟨trivial, ph, rfl, hw⟩
  obtain rfl := hclaimed (by omega)
  refine (flow_read _).wp_bind (hst _) fun seq => ?_
  split
  · exact ⟨trivial, _, rfl, trivial⟩
  refine flow_choose.wp_bind (hst _) fun now => (flow_read _).wp_bind (hst _) fun state => ?_
  split
  · exact (flow_stale.store _).wp_bind (hst _) fun _ => ⟨trivial, _, rfl, trivial⟩
  split
  · exact ⟨trivial, _, rfl, trivial⟩
  refine (flow_read _).wp_bind (hst _) fun seq => ?_
  split
  · exact (flow_stale.store _).wp_bind (hst _) fun _ => ⟨trivial, _, rfl, trivial⟩
  refine wp_bind (wp_mono wp_skipSlot ?_)
  rintro _ _ - rfl
  refine wp_bind (wp_mono wp_skipHead ?_)
  rintro _ _ - rfl
  refine (flow_stale.store _).wp_bind (hst _) fun _ => (flow_noticeDepth cf).wp_bind (hst _) fun _ => ?_
  exact ⟨trivial, _, rfl, trivial⟩

/-- Reading is reading the message. -/
theorem reads {s : Mem} {γ : Actor → Ghost} {e : Label} {out : List (ℕ × List UInt8)}
    (hpre : (outline cf md).Pre .consumer e (.consumer out (.reading k m)) s γ) :
    RingOk cf md.fifo s.ring γ ∧ s.ring.head = k ∧ k < s.ring.tail ∧ s.ring.log[k]? = some m ∧
      Readable cf s.ring k ∧ Written (s.ring.entries (cf.index k)).data m m.bytes.length := by
  obtain ⟨hr, hk, hlt, hl, hread⟩ := standsAt hpre (by simp [Phase.Down])
  obtain ⟨m', hl', -, hw⟩ := id hread
  rw [hl] at hl'
  cases hl'
  exact ⟨hr, hk, hlt, hl, hread, hw⟩

theorem wp_bodyLength :
    wp (outline cf md) .consumer (Moves .consumer h) (load (bodyLengthAt (cf.index k)))
      (fun len g => g = .consumer h.delivered (.reading k m) ∧ len = m.body.length ∧
        msgHeaderLen + len ≤ cf.maxMsgSize)
      (.consumer h.delivered (.reading k m)) := by
  refine wp_learn trivial trivial (moves_same _ _) fun s γ hpre => ⟨trivial, rfl, ?_⟩
  obtain ⟨hr, hk, hlt, hl, -, hw⟩ := reads hpre
  have hlen : (bodyLengthAt (cf.index k)).get s = m.body.length := hw.bodyLength
  have := hr.size m (List.mem_of_getElem? hl)
  rw [length_bytes] at this
  exact ⟨hlen, by rwa [hlen]⟩

theorem wp_copyOut (off count : ℕ) (hle : off + count ≤ m.bytes.length) :
    wp (outline cf md) .consumer (Moves .consumer h) (copyOut (cf.index k) off count)
      (fun bs g => g = .consumer h.delivered (.reading k m) ∧ bs = (m.bytes.drop off).take count)
      (.consumer h.delivered (.reading k m)) := by
  induction count generalizing off with
  | zero => exact ⟨trivial, rfl, by simp⟩
  | succ count ih =>
    refine wp_bind (wp_mono (Q := fun b g => g = .consumer h.delivered (.reading k m) ∧
      some b = m.bytes[off]?) ?_ ?_)
    · refine wp_learn trivial trivial (moves_same _ _) fun s γ hpre => ⟨trivial, rfl, ?_⟩
      exact (reads hpre).2.2.2.2.2 off (by omega)
    · rintro b _ - ⟨rfl, hb⟩
      refine wp_bind (wp_mono (ih (off + 1) (by omega)) ?_)
      rintro bs _ - ⟨rfl, rfl⟩
      refine ⟨trivial, rfl, ?_⟩
      obtain ⟨hlt, rfl⟩ := List.getElem?_eq_some_iff.mp hb.symm
      rw [List.drop_eq_getElem_cons hlt, List.take_succ_cons]

/-- The message at `head` is taken away: first its slot … -/
theorem wp_takeSlot :
    wp (outline cf md) .consumer (Moves .consumer h) (store (readySeqAt (cf.index k)) 0)
      (fun _ g => g = .consumer h.delivered (.cleared k m))
      (.consumer h.delivered (.reading k m)) := by
  refine wp_store trivial fun s γ hpre => ⟨trivial, _, moves_same _ (.cleared k m), ?_, trivial, rfl⟩
  obtain ⟨-, hk, hlt, hl, hread, -⟩ := reads hpre
  exact hpre.inv.consume hpre.own (by simp [Phase.Down]) (by simp [Phase.Down])
    (fun hr => hr.clear hpre.own hk hlt trivial ⟨hk, hlt, hl, hr.no_writer hk.le hread⟩) le_rfl
    fun ho => ho.setEntry _ _

/-- … then `head`. -/
theorem wp_takeHead :
    wp (outline cf md) .consumer (Moves .consumer h) (store headAt (k + 1))
      (fun _ g => g = .consumer (h.delivered ++ [(k, m.bytes)]) .idle)
      (.consumer h.delivered (.cleared k m)) := by
  refine wp_store trivial fun s γ hpre =>
    ⟨trivial, _, moves_consumer _ .idle (by simp), ?_, trivial, rfl⟩
  obtain ⟨-, hk, hlt, hl, hno⟩ := standsAt hpre (by simp [Phase.Down])
  exact hpre.inv.consume hpre.own (by simp [Phase.Down]) (by simp [Phase.Down])
    (fun hr => hr.advance hpre.own hk hlt (fun _ => hno) _) (by rw [hk]; exact Nat.le_succ k)
    fun ho => ho.deliver hk hl

theorem wp_dequeue {bufferCap : ℕ} (hcap : cf.maxMsgSize ≤ bufferCap) (hw : ph.Waiting) :
    wp (outline cf md) .consumer (Moves .consumer h) (dequeue cf bufferCap)
      (fun r g => ∃ ph : Phase, g = .consumer (h.delivered ++ r.toList) ph ∧ ph.Waiting)
      (.consumer h.delivered ph) := by
  refine wp_bind (wp_mono (wp_stand hw) ?_)
  rintro k _ - rfl
  refine wp_bind (wp_mono wp_checkReady ?_)
  rintro seq g - ⟨hne, heq⟩
  by_cases hs : seq = k + 1
  · obtain ⟨m, rfl⟩ := heq hs
    rw [if_neg (by simp [hs])]
    refine wp_bind (wp_mono (wp_bodyLength (m := m)) ?_)
    rintro len _ - ⟨rfl, rfl, hsize⟩
    have := cf.maxMsgSize_lt
    have hlen : u32 (msgHeaderLen + m.body.length) = m.bytes.length := by
      rw [u32, Nat.mod_eq_of_lt (by omega), length_bytes]
    rw [if_neg (by omega), if_neg (by omega), hlen]
    refine wp_bind (wp_mono (wp_copyOut (m := m) 0 _ (by omega)) ?_)
    rintro bs _ - ⟨rfl, rfl⟩
    refine wp_bind (wp_mono wp_takeSlot ?_)
    rintro _ _ - rfl
    refine wp_bind (wp_mono wp_takeHead ?_)
    rintro _ _ - rfl
    refine (flow_noticeDepth cf).wp_bind (stable cf md (moves_consumer _ _ (by simp))) fun _ => ?_
    exact ⟨trivial, .idle, by simp, trivial⟩
  · obtain rfl := hne hs
    rw [if_pos hs]
    refine flow_choose.wp_bind (stable cf md (moves_same _ _)) fun probe => ?_
    split
    · refine wp_bind (wp_mono wp_trySkip ?_)
      rintro _ _ - ⟨ph, rfl, hw⟩
      exact ⟨trivial, ph, by simp, hw⟩
    · exact ⟨trivial, .standing k, by simp, trivial⟩

end Dequeue

end Ring

end UbsAtomic
