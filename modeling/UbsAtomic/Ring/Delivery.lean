import UbsAtomic.Ring.RingRuns

/-! What the consumer is given, for any number of producers in any interleaving.

        log     m₀  m₁  m₂  m₃  m₄ …      one message per ticket, in the order of the tickets
        given   m₀  m₁  m₂                by `dequeue`, so far

    As long as no reservation is skipped, what was given is the beginning of `log`, byte for byte.
    With skipping, a producer that was skipped may come back after another ticket has taken its
    slot; what it writes then is given for that other ticket. Nothing else goes wrong. -/

namespace UbsAtomic

open Conc Conc.Prog

namespace Ring

/-! ### Calls -/

inductive Op where
  | enqueueLocal (m : Message)
  | enqueueRemote (m : Message)
  | dequeue (bufferCap : ℕ)
  deriving DecidableEq

inductive Result where
  | code (c : ℤ)
  | message (d : Option (ℕ × List UInt8))
  deriving DecidableEq

variable (cf : Conf)

/-- Header and body fit into an entry. -/
def Message.Fits (m : Message) : Prop := msgHeaderLen + m.body.length ≤ cf.maxMsgSize

instance (m : Message) : Decidable (m.Fits cf) := inferInstanceAs (Decidable (_ ≤ _))

def enqueueCall : Actor → Message → Call ℤ
  | .remote n _, m => enqueueRemote cf n m
  | _, m => enqueueLocal cf m

def code : Actor → Op → Call Result
  | t, .enqueueLocal m | t, .enqueueRemote m => do return .code (← enqueueCall cf t m)
  | _, .dequeue bufferCap => do return .message (← dequeue cf bufferCap)

/-- One consumer with a large enough buffer, producers on its node and on others. -/
def allowed : Actor → Op → Bool
  | .localProducer _, .enqueueLocal m | .remote _ _, .enqueueRemote m => decide (m.Fits cf)
  | .consumer, .dequeue bufferCap => decide (cf.maxMsgSize ≤ bufferCap)
  | _, _ => false

/-- What `dequeue` returned is appended to what the consumer was given. -/
def Held.give (h : Held) : Result → Held
  | .message d => { h with delivered := h.delivered ++ d.toList }
  | .code _ => h

def client : Client Actor Mem Label Op Result Held where
  code := code cf
  allowed := fun t _ op => allowed cf t op
  start := fun h _ => h
  finish := fun h _ r => h.give r

abbrev Run := Config Actor Mem Label Op Result Held

/-- A fresh ring and nobody in a call. -/
def start : Run := ⟨.init cf, fun _ => ⟨[], true⟩, fun _ => none⟩

/-- What the consumer was given so far: tickets and bytes. -/
def delivered (x : Run) : List (ℕ × List UInt8) := (x.held .consumer).delivered

/-! ### The proof -/

/-- Between two calls a producer is not writing, and the consumer has returned all it took. -/
def Rest (md : Mode) : Actor → Held → Ghost → Prop
  | .consumer, h, g => ∃ ph : Phase, g = .consumer h.delivered ph ∧ ph.Waiting
  | _, _, g => Ready md g

def spec (fifo : Bool) : Spec Actor Mem Label Op Result Held Ghost where
  toOutline := outline cf ⟨fifo, true⟩
  rest := Rest ⟨fifo, true⟩
  moves := fun t h => Moves t h
  good := fun _ _ _ _ => True

variable {cf}

theorem Rest.moves {md : Mode} {t : Actor} {h : Held} {g : Ghost} (hr : Rest md t h g) :
    Moves t h g g := by
  rintro rfl
  obtain ⟨ph, rfl, -⟩ := hr
  exact moves_same .idle ph rfl

theorem proved (fifo : Bool) : (spec cf fifo).Proved (client cf) where
  stay := fun _ _ _ _ hm => hm
  idle := fun _ _ _ hr => ⟨trivial, hr.moves⟩
  start := fun _ _ _ _ _ hr => hr.moves
  call := by
    intro t h op g ha hr
    cases t with
    | consumer =>
      cases op with
      | dequeue bufferCap =>
        obtain ⟨ph, rfl, hw⟩ := hr
        refine wp_bind (wp_mono (wp_dequeue (of_decide_eq_true ha) hw) ?_)
        rintro r _ - ⟨ph, rfl, hw⟩
        exact ⟨trivial, trivial, ph, rfl, hw⟩
      | _ => cases ha
    | localProducer i =>
      cases op with
      | enqueueLocal m =>
        refine wp_bind (wp_mono (wp_enqueueLocal rfl hr (of_decide_eq_true ha)) ?_)
        rintro r _ - ⟨c, rfl⟩
        exact ⟨trivial, trivial, .inl ⟨rfl, .inr ⟨c, rfl⟩⟩⟩
      | _ => cases ha
    | remote n i =>
      cases op with
      | enqueueRemote m =>
        refine wp_bind (wp_mono (wp_enqueueRemote hr (of_decide_eq_true ha)) ?_)
        rintro r _ - ⟨c, rfl⟩
        exact ⟨trivial, trivial, .inl ⟨rfl, .inr ⟨c, rfl⟩⟩⟩
      | _ => cases ha
    | handler n i => cases op <;> cases ha

/-- Everybody outside, nothing given. -/
def atStart : Actor → Ghost
  | .consumer => .consumer [] .idle
  | _ => .idle

theorem ringOk_init (fifo : Bool) {γ : Actor → Ghost} (hγ : ∀ t, ¬ (γ t).Inside)
    (hc : γ .consumer = .consumer [] .idle) : RingOk cf fifo (.init cf) γ where
  le := le_rfl
  room := Nat.zero_le _
  log := rfl
  size := by simp [RingBuffer.init]
  seq := fun _ _ => le_rfl
  cached := le_rfl
  seen := fun t f ht => absurd (by rw [ht]; trivial) (hγ t)
  writer := fun t k j m ht => absurd (by rw [ht]; trivial) (hγ t)
  unique := fun t _ k j _ m _ ht => absurd (by rw [ht]; trivial) (hγ t)
  live := fun k _ hk => absurd hk (Nat.not_lt_zero k)
  phase := by
    rintro out ph h
    rw [hc] at h
    cases h
    trivial

theorem not_inside_atStart (t : Actor) : ¬ (atStart t).Inside := by
  cases t <;> simp [atStart, Ghost.Inside]

theorem holds_start (fifo : Bool) : (spec cf fifo).Holds (client cf) (start cf) atStart where
  inv := by
    refine ⟨fun _ => ringOk_init fifo not_inside_atStart rfl, ?_, fun _ => le_rfl,
      fun _ _ => Nat.zero_le _, fun t ht => absurd ht (not_inside_atStart t),
      fun n k ht => absurd ht (not_inside_atStart _), by simp, fun _ => ⟨rfl, fun _ => rfl⟩, by simp, ?_⟩
    · rintro - out ph ⟨⟩
      exact ⟨by simp, by simp, by simp, fun _ => rfl⟩
    · rintro out ph ⟨⟩
      simp [start, Mem.init, Phase.Down, Built]
  moved := fun t => ⟨atStart t, by rintro rfl; exact ⟨[], .idle, rfl, [], rfl, by simp⟩⟩
  idle := by
    intro t _
    cases t with
    | consumer => exact ⟨.idle, rfl, trivial⟩
    | _ => exact .inl ⟨rfl, .inl rfl⟩
  busy := by simp [start]

/-- The consumer's ghost. -/
theorem consumer_out {fifo : Bool} {x : Run} {γ : Actor → Ghost}
    (h : (spec cf fifo).Holds (client cf) x γ) :
    ∃ out ph l, γ .consumer = .consumer out ph ∧ out = delivered x ++ l ∧ l.length ≤ 1 ∧
      OutOk fifo x.mem.ring out ∧ RingOk cf fifo x.mem.ring γ := by
  obtain ⟨_, hm⟩ := h.moved .consumer
  obtain ⟨out, ph, hg, l, hl, hlen⟩ := hm rfl
  have hi : Inv cf ⟨fifo, true⟩ x.mem γ := h.inv
  exact ⟨out, ph, l, hg, hl, hlen, hi.out rfl out ph hg, hi.ring (hi.fixed rfl).1⟩

/-! ### Nothing is skipped -/

/-- The consumer does not skip the reservation it stands at. -/
def NoSkip (_ : Actor → Option Label) (_ : Actor) (e : Label) (_ : Mem) : Prop := e ≠ .skip

theorem NoSkip.cond {ℓ : Actor → Option Label} {t : Actor} {e : Label} {s : Mem}
    (h : NoSkip ℓ t e s) : Cond cf ⟨true, true⟩ ℓ t e s := by
  cases e <;> simp_all [Cond, NoSkip]

/-- In order and complete: the tickets are `0, 1, 2, …` and the bytes those of the log. -/
theorem OutOk.prefix_log {r : RingBuffer} {out : List (ℕ × List UInt8)} (ho : OutOk true r out) :
    out.length = r.head ∧ out.map Prod.fst = List.range out.length ∧
      out.map Prod.snd <+: r.log.map Message.bytes := by
  have hfst := ho.all rfl
  have hlen : out.length = r.head := by
    rw [← List.length_map Prod.fst, hfst, List.length_range]
  refine ⟨hlen, by rw [hfst, hlen], ?_⟩
  rw [List.prefix_iff_getElem?]
  intro i hi
  have hi' : i < out.length := by simpa using hi
  obtain ⟨m, hm, hb⟩ := ho.bytes out[i] (List.getElem_mem hi')
  have hki : out[i].1 = i := by
    have : (out.map Prod.fst)[i]? = (List.range r.head)[i]? := by rw [hfst]
    simpa [hi', hlen ▸ hi'] using this
  rw [hki] at hm
  simp [hm, hb]

/-- Without skipping the ring is a queue: `head ≤ tail ≤ head + capacity`, a slot is written only
    after the tickets that had it before were given away, and the consumer is given the messages in
    the order of their tickets, each once, with header and body intact. -/
theorem fifo_of_noSkip {x : Run} (hx : Config.Reach (client cf) NoSkip (start cf) x) :
    (x.mem.ring.head ≤ x.mem.ring.tail ∧ x.mem.ring.tail ≤ x.mem.ring.head + cf.capacity) ∧
    (∀ t k, x.labels t = some (.write k) ∨ x.labels t = some (.commit k) →
      x.mem.ring.head ≤ k ∧ ∀ k' < k, cf.index k' = cf.index k → k' < x.mem.ring.head) ∧
    x.mem.ring.log.length = x.mem.ring.tail ∧
    (delivered x).map Prod.snd <+: x.mem.ring.log.map Message.bytes ∧
    (delivered x).map Prod.fst = List.range (delivered x).length ∧
    (x.pc .consumer = none → (delivered x).length = x.mem.ring.head) := by
  have hx' : Config.Reach (client cf) (spec cf true).cond (start cf) x := hx.mono fun _ _ _ _ => NoSkip.cond
  obtain ⟨γ, h⟩ := (proved true).sound (holds_start true) hx'
  obtain ⟨out, ph, l, hγ, hout, -, ho, hr⟩ := consumer_out h
  obtain ⟨hlen, hfst, hsnd⟩ := ho.prefix_log
  refine ⟨⟨hr.le, hr.room⟩, fun t k hk => ?_, hr.log, ?_, ?_, fun hidle => ?_⟩
  · have hclaim : k < x.mem.ring.head + cf.capacity ∧ (true = true → x.mem.ring.head ≤ k) := by
      have hmeets : x.Meets (spec cf true).cond t := by
        intro e he
        have hskip : NoSkip x.labels t e x.mem := by
          rcases hk with hk | hk <;> rw [hk] at he <;> cases he <;> simp [NoSkip]
        exact hskip.cond
      rcases hk with hk | hk <;>
        exact (proved true).claims (holds_start true) hx' hmeets hk
    refine ⟨hclaim.2 rfl, fun k' hlt he => ?_⟩
    by_contra hge
    exact absurd (index_inj (by omega) (by omega) he) (by omega)
  · rw [hout, List.map_append] at hsnd
    exact (List.prefix_append _ _).trans hsnd
  · have : (out.map Prod.fst).take (delivered x).length = List.range (delivered x).length := by
      rw [hfst, List.take_range, Nat.min_eq_left (by simp [hout])]
    simpa [hout] using this
  · obtain ⟨ph', hg, -⟩ : Rest ⟨true, true⟩ .consumer _ _ := h.idle .consumer hidle
    rw [hγ] at hg
    cases hg
    exact hlen

/-- Two slots, messages of at most 20 bytes. -/
def smallConf : Conf := ⟨1, 20, by norm_num⟩

/-- A message with one byte of body. -/
def shortMessage (src : UInt64) (b : UInt8) : Message := ⟨⟨src, 1, 0, 0, 1, 1⟩, [b], rfl⟩

theorem meets_of_noSkip (x : Run) (t : Actor) (h : decide (x.labels t ≠ some .skip) = true) :
    x.Meets NoSkip t := by
  intro e he
  simpa [NoSkip, he] using h

/-- A second message is sent while the first is being read. -/
theorem fifo_of_noSkip_overtaken :
    ∃ x, Config.Reach (client smallConf) NoSkip (start smallConf) x ∧ (delivered x).length = 2 ∧
      (delivered x).map Prod.snd <+: x.mem.ring.log.map Message.bytes := by
  have hrun : ∃ x, Config.Reach (client smallConf) NoSkip (start smallConf) x ∧
      (delivered x).length = 2 :=
    Config.reach_of_runAll meets_of_noSkip
      [.call (.localProducer 0) (.enqueueLocal (shortMessage 7 1)), .finish (.localProducer 0),
        .call .consumer (.dequeue 20), .steps .consumer [0, 0, 0, 0],
        .call (.remote 3 0) (.enqueueRemote (shortMessage 8 2)), .finish (.remote 3 0),
        .finish .consumer, .call .consumer (.dequeue 20), .finish .consumer] (by decide +kernel)
  obtain ⟨x, hx, hlen⟩ := hrun
  exact ⟨x, hx, hlen, (fifo_of_noSkip hx).2.2.2.1⟩

/-! ### Late producers -/

/-- No store for a ticket comes after a later ticket has been given the slot. -/
def InTime (cf : Conf) (_ : Actor → Option Label) (_ : Actor) : Label → Mem → Prop
  | .write k, s | .commit k, s => s.ring.tail ≤ k + cf.capacity
  | _, _ => True

theorem InTime.cond {ℓ : Actor → Option Label} {t : Actor} {e : Label} {s : Mem}
    (h : InTime cf ℓ t e s) : Cond cf ⟨false, true⟩ ℓ t e s := by
  cases e <;> simp_all [Cond, InTime]

/-- What was given for a ticket is the message that took it. -/
def Intact (r : RingBuffer) (d : ℕ × List UInt8) : Prop :=
  (r.log[d.1]?).map Message.bytes = some d.2

instance (r : RingBuffer) (d : ℕ × List UInt8) : Decidable (Intact r d) :=
  inferInstanceAs (Decidable (_ = _))

/-- What a producer's step does to the slots: a payload store changes one byte of its slot, the
    last store sets `ready_seq`, all other steps leave the slots alone. Tickets keep their
    messages. -/
def Touches (cf : Conf) (e : Label) (s s' : Mem) : Prop :=
  (∀ (k : ℕ) m, s.ring.log[k]? = some m → s'.ring.log[k]? = some m) ∧
    match e with
    | .write k => ∃ e, s'.ring = s.ring.setEntry (cf.index k) e
    | .commit k => s'.ring = s.ring.setEntry (cf.index k)
        { s.ring.entries (cf.index k) with readySeq := k + 1 }
    | _ => s'.ring.entries = s.ring.entries

theorem touches_of_same {e : Label} {s s' : Mem} (he : e.Flow) (h : SameRing s s') :
    Touches cf e s s' := by
  refine ⟨by rw [h.log]; exact fun _ _ => id, ?_⟩
  cases e <;> first | exact h.entries | exact he.elim

theorem FlowOnly.touches {α : Type} {p : Call α} (h : FlowOnly p) : Obeys (Touches cf) p :=
  h.obeys fun _ _ _ he hs => touches_of_same he hs

theorem touches_shadow {n : ℕ} (p : Place Mem ℕ) : Obeys (Touches cf) (loadAt (.shadow n) p) :=
  ⟨fun s _ s' b hf => by
    obtain ⟨rfl, -⟩ : s = s' ∧ p.get s = b := by simpa using hf
    exact ⟨fun _ _ => id, rfl⟩, fun _ => trivial⟩

theorem touches_hasRoom {e : Label} {p : Place Mem ℕ} (hread : Obeys (Touches cf) (loadAt e p))
    (hp : ∀ v, Obeys (Touches cf) (store p v)) (currTail : ℕ) :
    Obeys (Touches cf) (hasRoom cf e p currTail) := by
  refine hread.bind fun cached => .ite ?_ trivial
  refine (flow_read _).touches.bind fun fresh => (hp fresh).bind fun _ => .ite ?_ trivial
  exact (flow_sampleFlowState cf _).touches.bind fun _ => trivial

theorem touches_reserve (m : Message) (currTail : ℕ) : Obeys (Touches cf) (reserve m currTail) := by
  refine ⟨fun s c s' b hf => ?_, fun _ => trivial⟩
  dsimp only at hf
  split at hf <;> simp only [Option.some.injEq, Prod.mk.injEq] at hf <;> obtain ⟨rfl, -⟩ := hf
  · refine ⟨fun k m' hl => ?_, rfl⟩
    show (s.ring.log ++ [m])[k]? = some m'
    rwa [List.getElem?_append_left (List.getElem?_eq_some_iff.mp hl).1]
  · exact ⟨fun _ _ => id, rfl⟩

theorem touches_copyIn (k : ℕ) (bs : List UInt8) (off : ℕ) :
    Obeys (Touches cf) (copyIn k (cf.index k) bs off) := by
  induction bs generalizing off with
  | nil => trivial
  | cons b bs ih =>
    exact (Obeys.write fun _ => ⟨fun _ _ => id, _, rfl⟩).bind fun _ => ih (off + 1)

theorem touches_writeEntry (m : Message) (k : ℕ) : Obeys (Touches cf) (writeEntry cf m k) := by
  have hcommit : Obeys (Touches cf) (storeAt (.commit k) (readySeqAt (cf.index k)) (k + 1)) :=
    .write fun _ => ⟨fun _ _ => id, rfl⟩
  refine (touches_copyIn k _ 0).bind fun _ => .ite ?_ hcommit
  exact (touches_copyIn k _ _).bind fun _ => hcommit

theorem touches_local (v : ℕ) : Obeys (Touches cf) (store localCachedHeadAt v) :=
  .write fun _ => ⟨fun _ _ => id, rfl⟩

theorem touches_remote (n v : ℕ) : Obeys (Touches cf) (store (shadowHeadAt n) v) :=
  .write fun _ => ⟨fun _ _ => id, rfl⟩

theorem touches_enqueueLocal (m : Message) : Obeys (Touches cf) (enqueueLocal cf m) := by
  refine .ite trivial ((flow_read _).touches.bind fun tail => Obeys.bind (.loop fun currTail => ?_) ?_)
  · refine (touches_hasRoom (flow_read _).touches touches_local _).bind fun room => .ite trivial ?_
    exact (touches_reserve m _).bind fun taken => .ite trivial trivial
  · rintro (_ | k)
    · trivial
    · refine (touches_writeEntry m k).bind fun _ => (flow_read _).touches.bind fun threshold => ?_
      refine (flow_read _).touches.bind fun cached => .ite trivial ?_
      refine (flow_read _).touches.bind fun fresh => (touches_local fresh).bind fun _ => ?_
      exact (flow_sampleFlowState cf _).touches

theorem touches_enqueueRemote (n : ℕ) (m : Message) : Obeys (Touches cf) (enqueueRemote cf n m) := by
  have htail : Obeys (Touches cf) (loadAt (.useCache n) tailAt) :=
    ⟨fun s _ s' b hf => by
      obtain ⟨rfl, -⟩ : s = s' ∧ tailAt.get s = b := by simpa using hf
      exact ⟨fun _ _ => id, rfl⟩, fun _ => trivial⟩
  refine .ite trivial (htail.bind fun tail => Obeys.bind (.loop fun st => .ite trivial ?_) ?_)
  · refine (touches_hasRoom (touches_shadow _) (touches_remote n) _).bind fun room => .ite trivial ?_
    exact (touches_reserve m _).bind fun taken => .ite trivial trivial
  · rintro (e | k)
    · trivial
    · refine (touches_writeEntry m k).bind fun _ => ?_
      refine (flow_cachedFlowThreshold _ n).touches.bind fun threshold => .ite trivial ?_
      refine (touches_shadow _).bind fun cached => .ite trivial ?_
      refine (flow_refreshCachedThreshold n).touches.bind fun _ => ?_
      refine (flow_read _).touches.bind fun fresh => (touches_remote n fresh).bind fun _ => ?_
      exact (flow_sampleFlowState cf _).touches

theorem touches_code {t : Actor} (ht : t ≠ .consumer) (op : Op) (ha : allowed cf t op = true) :
    Obeys (Touches cf) (code cf t op) := by
  cases t with
  | consumer => exact absurd rfl ht
  | localProducer i =>
    cases op with
    | enqueueLocal m => exact (touches_enqueueLocal m).bind fun _ => trivial
    | _ => cases ha
  | remote n i =>
    cases op with
    | enqueueRemote m => exact (touches_enqueueRemote n m).bind fun _ => trivial
    | _ => cases ha
  | handler n i => cases op <;> cases ha

/-- A step of a producer that is in time leaves the readable tickets readable, and its last store
    makes its own ticket readable. -/
theorem readable_step {t : Actor} {e : Label} {s s' : Mem} {γ : Actor → Ghost}
    (hr : RingOk cf false s.ring γ) (hlab : Lab (some e) (γ t)) (htime : InTime cf (fun _ => none) t e s)
    (htouch : Touches cf e s s') :
    (∀ k, s.ring.head ≤ k → k < s.ring.tail → Readable cf s.ring k → Readable cf s'.ring k) ∧
      ∀ k, e = .commit k → s.ring.head ≤ k → Readable cf s'.ring k := by
  obtain ⟨hlog, hslots⟩ := htouch
  have hother : ∀ k j m, γ t = .writing k j m → s.ring.tail ≤ k + cf.capacity →
      ∀ k', s.ring.head ≤ k' → k' < s.ring.tail → Readable cf s.ring k' → cf.index k' ≠ cf.index k := by
    intro k j m hγ hin k' hk' hlt hread
    refine hr.index_ne (hr.writer t k j m hγ).1 hin hk' hlt ?_
    rintro rfl
    exact hr.no_writer hk' hread t j m hγ
  cases e with
  | write k =>
    obtain ⟨j, m, hγ⟩ := hlab
    obtain ⟨en, hs⟩ := hslots
    refine ⟨fun k' hk' hlt hread => ?_, by simp⟩
    rw [hs]
    exact hread.setEntry (hother k j m hγ htime k' hk' hlt hread)
  | commit k =>
    obtain ⟨m, hγ⟩ := hlab
    refine ⟨fun k' hk' hlt hread => ?_, ?_⟩
    · rw [hslots]
      exact hread.setEntry (hother k _ m hγ htime k' hk' hlt hread)
    · rintro _ ⟨⟩ hk
      obtain ⟨-, hl, -, hd⟩ := hr.writer t k _ m hγ
      refine ⟨m, hlog k m hl, ?_⟩
      rw [hslots, setEntry_entries, if_pos rfl]
      exact ⟨rfl, (hd hk).2⟩
  | _ =>
    refine ⟨fun k' _ _ hread => ?_, by simp⟩
    obtain ⟨m, hl, hd⟩ := hread
    have hsame : s'.ring.entries = s.ring.entries := hslots
    exact ⟨m, hlog k' m hl, by rw [hsame]; exact hd⟩

/-- With skipping, in every run in which no producer stores for a ticket whose slot has gone to a
    later ticket: what is given for a ticket is the message that took it, in the order of the
    tickets, and no step of a producer makes a committed ticket unreadable. -/
theorem intact_of_inTime {x : Run} (hx : Config.Reach (client cf) (InTime cf) (start cf) x) :
    (∀ d ∈ delivered x, Intact x.mem.ring d) ∧ ((delivered x).map Prod.fst).Pairwise (· < ·) ∧
    ∀ t mv y, t ≠ .consumer → x.Meets (InTime cf) t → x.step (client cf) t mv = some y →
      (∀ k, x.mem.ring.head ≤ k → k < x.mem.ring.tail → Readable cf x.mem.ring k →
        Readable cf y.mem.ring k) ∧
      ∀ k, x.labels t = some (.commit k) → x.mem.ring.head ≤ k → Readable cf y.mem.ring k := by
  have hx' : Config.Reach (client cf) (spec cf false).cond (start cf) x :=
    hx.mono fun _ _ _ _ => InTime.cond
  obtain ⟨γ, h⟩ := (proved false).sound (holds_start false) hx'
  obtain ⟨out, ph, l, hγ, hout, -, ho, hr⟩ := consumer_out h
  refine ⟨fun d hd => ?_, ?_, fun t mv y ht hmeets hs => ?_⟩
  · obtain ⟨m, hl, hb⟩ := ho.bytes d (by rw [hout]; exact List.mem_append_left _ hd)
    rw [Intact, hl, hb]
    rfl
  · have := ho.order
    rw [hout, List.map_append] at this
    exact (List.pairwise_append.mp this).1
  · rcases hx.step_obeys (fun _ => touches_code ht) rfl hs with ⟨hnone, hmem⟩ | ⟨e, he, htouch⟩
    · rw [hmem]
      exact ⟨fun _ _ _ => id, by simp [hnone]⟩
    · have hlab : Lab (x.labels t) (γ t) := h.labels (proved false) t
      rw [he] at hlab
      obtain ⟨hkeep, hcommit⟩ := readable_step hr hlab (hmeets e he) htouch
      exact ⟨hkeep, fun k hk => hcommit k (by simpa [he] using hk)⟩

/-- Whether the step `t` stands before is in time. -/
def inTimeHere (cf : Conf) (x : Run) (t : Actor) : Bool :=
  match x.labels t with
  | some (.write k) | some (.commit k) => decide (x.mem.ring.tail ≤ k + cf.capacity)
  | _ => true

theorem meets_of_inTimeHere (x : Run) (t : Actor) (h : inTimeHere cf x t = true) :
    x.Meets (InTime cf) t := by
  intro e he
  rw [inTimeHere, he] at h
  cases e with
  | write k | commit k =>
    have hle : x.mem.ring.tail ≤ k + cf.capacity := of_decide_eq_true h
    exact hle
  | _ => trivial

/-- Producer 0 takes ticket 0 and is delayed; the consumer finds the slot unwritten twice, more than
    the timeout apart, and skips it. -/
def skipTicketZero : List (Config.Piece Actor Label Op) :=
  [.call (.localProducer 0) (.enqueueLocal (shortMessage 7 1)), .upTo (.localProducer 0) (.write 0),
    .call .consumer (.dequeue 20), .steps .consumer [0, 0, 1, 0, 0, 1], .finish .consumer,
    .call .consumer (.dequeue 20), .steps .consumer [0, 0, 1, 0, 0, 5000001], .finish .consumer]

/-- Producer 1 sends the next message and the consumer takes it. -/
def passTicketOne : List (Config.Piece Actor Label Op) :=
  [.call (.localProducer 1) (.enqueueLocal (shortMessage 8 2)), .finish (.localProducer 1),
    .call .consumer (.dequeue 20), .finish .consumer]

/-- The skipped producer finishes before its slot is taken again. -/
theorem intact_of_inTime_skipped :
    ∃ x, Config.Reach (client smallConf) (InTime smallConf) (start smallConf) x ∧
      x.mem.ring.head = 2 ∧ (delivered x).map Prod.fst = [1] ∧
      ∀ d ∈ delivered x, Intact x.mem.ring d := by
  have hrun : ∃ x, Config.Reach (client smallConf) (InTime smallConf) (start smallConf) x ∧
      x.mem.ring.head = 2 ∧ (delivered x).map Prod.fst = [1] :=
    Config.reach_of_runAll meets_of_inTimeHere
      (skipTicketZero ++ [.finish (.localProducer 0)] ++ passTicketOne) (by decide +kernel)
  obtain ⟨x, hx, hhead, hone⟩ := hrun
  exact ⟨x, hx, hhead, hone, (intact_of_inTime hx).1⟩

/-- The ring never holds more than its capacity, and whenever nobody is in a call the consumer can
    read every ticket between `head` and `tail`. -/
theorem readable_of_quiescent {x : Run}
    (hx : Config.Reach (client cf) (InTime cf) (start cf) x) :
    x.mem.ring.head ≤ x.mem.ring.tail ∧ x.mem.ring.tail ≤ x.mem.ring.head + cf.capacity ∧
      (x.Quiescent → ∀ k, x.mem.ring.head ≤ k → k < x.mem.ring.tail → Readable cf x.mem.ring k) := by
  obtain ⟨γ, h⟩ := (proved false).sound (holds_start false) (hx.mono fun _ _ _ _ => InTime.cond)
  obtain ⟨_, _, _, _, _, _, _, hr⟩ := consumer_out h
  refine ⟨hr.le, hr.room, fun hq k hk hlt => ?_⟩
  rcases hr.live k hk hlt with ⟨t, j, m, ht⟩ | hread | ⟨-, out, ph, hc, hpass⟩
  · have hrest : Rest ⟨false, true⟩ t (x.held t) (γ t) := h.idle t (hq t)
    rw [ht] at hrest
    cases t with
    | consumer => simp [Rest] at hrest
    | _ => simp [Rest, Ready] at hrest
  · exact hread
  · obtain ⟨ph', hγ, hwait⟩ : Rest ⟨false, true⟩ .consumer _ _ := h.idle .consumer (hq _)
    rw [hc] at hγ
    cases hγ
    exact absurd hpass hwait.not_passes

/-- One message waits in the ring. -/
theorem readable_of_quiescent_one :
    ∃ x, Config.Reach (client smallConf) (InTime smallConf) (start smallConf) x ∧
      x.mem.ring.tail = 1 ∧ Readable smallConf x.mem.ring 0 := by
  have hrun : ∃ x, Config.Reach (client smallConf) (InTime smallConf) (start smallConf) x ∧
      (x.mem.ring.head = 0 ∧ x.mem.ring.tail = 1 ∧ (x.pc (.localProducer 0)).isNone) ∧
      ∀ u, u ∉ [Actor.localProducer 0] → x.pc u = none :=
    Config.reach_of_runAll_among _ (fun x t _ => meets_of_inTimeHere x t)
      [.call (.localProducer 0) (.enqueueLocal (shortMessage 7 1)), .finish (.localProducer 0)]
      (by simp [Config.Piece.thread]) (fun _ => rfl) (by decide +kernel)
  obtain ⟨x, hx, ⟨hhead, htail, hp⟩, hidle⟩ := hrun
  refine ⟨x, hx, htail, (readable_of_quiescent hx).2.2 (fun u => ?_) 0 hhead.le (by omega)⟩
  by_cases hu : u = .localProducer 0
  · simpa [hu] using hp
  · exact hidle u (by simpa using hu)

/-- Ticket 2 has the slot of the skipped ticket 0. When producer 0 copies its payload after ticket 2
    was committed, its message is given for ticket 2; when it stores `ready_seq` then, ticket 2 can
    never be read. -/
theorem lateProducer_violated :
    (∃ x, Config.Reachable (client smallConf) (start smallConf) x ∧
      ∃ d ∈ delivered x, ¬ Intact x.mem.ring d) ∧
    ∃ x, Config.Reachable (client smallConf) (start smallConf) x ∧
      x.mem.ring.head ≤ 2 ∧ 2 < x.mem.ring.tail ∧ Readable smallConf x.mem.ring 2 ∧
      ∃ y, x.step (client smallConf) (.localProducer 0) (.step 0) = some y ∧
        ¬ Readable smallConf y.mem.ring 2 := by
  have hsecond : ∃ x, Config.Reachable (client smallConf) (start smallConf) x ∧
      x.mem.ring.head ≤ 2 ∧ 2 < x.mem.ring.tail ∧ Readable smallConf x.mem.ring 2 ∧
      (x.step (client smallConf) (.localProducer 0) (.step 0)).any
        (fun y => decide (¬ Readable smallConf y.mem.ring 2)) = true :=
    Config.reachable_of_runAll (skipTicketZero ++ passTicketOne
      ++ [.upTo (.localProducer 0) (.commit 0),
        .call (.localProducer 1) (.enqueueLocal (shortMessage 9 3)), .finish (.localProducer 1)])
      (by decide +kernel)
  refine ⟨Config.reachable_of_runAll (skipTicketZero ++ passTicketOne
    ++ [.call (.localProducer 1) (.enqueueLocal (shortMessage 9 3)), .finish (.localProducer 1),
      .upTo (.localProducer 0) (.commit 0), .call .consumer (.dequeue 20), .finish .consumer])
    (by decide +kernel), ?_⟩
  obtain ⟨x, hx, hhead, htail, hread, hstep⟩ := hsecond
  obtain ⟨y, hy, hno⟩ := (Option.any_eq_true _ _).mp hstep
  exact ⟨x, hx, hhead, htail, hread, y, hy, of_decide_eq_true hno⟩

end Ring

end UbsAtomic
