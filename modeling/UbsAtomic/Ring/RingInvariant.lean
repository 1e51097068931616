import UbsAtomic.Conc.Machine
import UbsAtomic.Ring.RingBuffer

/-! What is true of the ring between any two steps.

    Every producer is outside, has seen some value of `head`, or is writing a ticket. Every ticket
    between `head` and `tail` is being written by exactly one producer or can be read:

        k in [head, tail)      a writer of k      or      ready_seq = k + 1 and the bytes of k

    Two such tickets never share a slot, because `tail ≤ head + capacity`. A writer whose ticket was
    skipped stays harmless as long as no later ticket has taken its slot. -/

namespace UbsAtomic

open Conc Conc.Prog

namespace Ring

/-! ### Bytes -/

@[simp] theorem length_leBytes (n count : ℕ) : (leBytes n count).length = count := by
  induction count generalizing n with
  | zero => rfl
  | succ c ih => simp [leBytes, ih]

/-- What was written as bytes is read back. -/
theorem readLe_leBytes {data : ℕ → UInt8} {n off count : ℕ} (hn : n < 256 ^ count)
    (h : ∀ i < count, some (data (off + i)) = (leBytes n count)[i]?) :
    readLe data off count = n := by
  induction count generalizing n off with
  | zero =>
    rw [readLe]
    omega
  | succ c ih =>
    have h0 : data off = UInt8.ofNat n := by simpa [leBytes] using h 0 (by omega)
    have hrest : readLe data (off + 1) c = n / 256 := by
      refine ih (by rw [pow_succ] at hn; omega) fun i hi => ?_
      have := h (i + 1) (by omega)
      rwa [leBytes, List.getElem?_cons_succ, show off + (i + 1) = off + 1 + i by omega] at this
    rw [readLe, h0, hrest, UInt8.toNat_ofNat']
    omega

@[simp] theorem length_headerBytes (h : Header) : h.bytes.length = msgHeaderLen := by
  simp [Header.bytes, msgHeaderLen]

theorem length_bytes (m : Message) : m.bytes.length = msgHeaderLen + m.body.length := by
  simp [Message.bytes]

/-- The first `j` bytes of the message are in place. -/
def Written (data : ℕ → UInt8) (m : Message) (j : ℕ) : Prop := ∀ i < j, some (data i) = m.bytes[i]?

theorem Written.succ {data : ℕ → UInt8} {m : Message} {j : ℕ} {b : UInt8} (h : Written data m j)
    (hb : m.bytes[j]? = some b) : Written (Function.update data j b) m (j + 1) := by
  intro i hi
  by_cases hij : i = j
  · subst hij
    rw [Function.update_self, hb]
  · rw [Function.update_of_ne hij]
    exact h i (by omega)

/-- The length in the header is the length of the body. -/
theorem Written.bodyLength {data : ℕ → UInt8} {m : Message} (h : Written data m m.bytes.length) :
    readLe data 8 4 = m.body.length := by
  rw [m.length_body]
  refine readLe_leBytes (by have := m.header.bodyLength.toNat_lt; norm_num at *; omega) fun i hi => ?_
  rw [h (8 + i) (by rw [length_bytes, msgHeaderLen]; omega), Message.bytes, Header.bytes]
  rw [List.getElem?_append_left (by simp; omega), List.getElem?_append_left (by simp; omega),
    List.getElem?_append_right (by simp)]
  simp

/-! ### Slots -/

section Index

variable (cf : Conf)

theorem capacity_pos : 0 < cf.capacity := Nat.two_pow_pos _

theorem index_eq_mod (k : ℕ) : cf.index k = k % cf.capacity := by
  rw [Conf.index, Conf.capacity, Nat.and_two_pow_sub_one_eq_mod]

theorem index_lt (k : ℕ) : cf.index k < cf.capacity := by
  rw [index_eq_mod]
  exact Nat.mod_lt _ (capacity_pos cf)

variable {cf}

/-- Tickets less than a lap apart have different slots. -/
theorem index_inj {k k' : ℕ} (h : k < k' + cf.capacity) (h' : k' < k + cf.capacity)
    (he : cf.index k = cf.index k') : k = k' := by
  rw [index_eq_mod, index_eq_mod] at he
  have hmod : k ≡ k' [MOD cf.capacity] := he
  rcases Nat.le_total k k' with hle | hle
  · have := (Nat.modEq_iff_dvd' hle).mp hmod
    have := Nat.eq_zero_of_dvd_of_lt this (by omega)
    omega
  · have := (Nat.modEq_iff_dvd' hle).mp hmod.symm
    have := Nat.eq_zero_of_dvd_of_lt this (by omega)
    omega

end Index

/-! ### Who does what -/

/-- The consumer, producers on its node, producers on other nodes, and the threads of those nodes
    that handle PEER_EXIT. -/
inductive Actor where
  | consumer
  | localProducer (k : ℕ)
  | remote (n k : ℕ)
  | handler (n k : ℕ)
  deriving DecidableEq

/-- Where the consumer stands. -/
inductive Phase where
  | idle
  | standing (k : ℕ)
  | claimed (k : ℕ)
  | reading (k : ℕ) (m : Message)
  | cleared (k : ℕ) (m : Message)
  | skipping (k : ℕ)
  | building (f i : ℕ)

/-- What the argument knows of a thread; the consumer has delivered `out` so far. -/
inductive Ghost where
  | idle
  | locked
  | seen (f : ℕ)
  | writing (k j : ℕ) (m : Message)
  | consumer (out : List (ℕ × List UInt8)) (ph : Phase)

/-- Ticket `k` is committed and its bytes are in its slot. -/
def Readable (cf : Conf) (r : RingBuffer) (k : ℕ) : Prop :=
  ∃ m, r.log[k]? = some m ∧ (r.entries (cf.index k)).readySeq = k + 1 ∧
    Written (r.entries (cf.index k)).data m m.bytes.length

instance (data : ℕ → UInt8) (m : Message) (j : ℕ) : Decidable (Written data m j) :=
  inferInstanceAs (Decidable (∀ i < j, _))

instance (cf : Conf) (r : RingBuffer) (k : ℕ) : Decidable (Readable cf r k) :=
  decidable_of_iff (∃ m ∈ r.log[k]?, (r.entries (cf.index k)).readySeq = k + 1 ∧
    Written (r.entries (cf.index k)).data m m.bytes.length) Iff.rfl

/-- What the consumer knows. -/
def PhaseOk (cf : Conf) (fifo : Bool) (r : RingBuffer) (γ : Actor → Ghost) : Phase → Prop
  | .idle => True
  | .standing k => r.head = k
  | .claimed k => r.head = k ∧ k < r.tail
  | .reading k m => r.head = k ∧ k < r.tail ∧ r.log[k]? = some m ∧ Readable cf r k
  | .cleared k m => r.head = k ∧ k < r.tail ∧ r.log[k]? = some m ∧ ∀ t j m', γ t ≠ .writing k j m'
  | .skipping k => r.head = k ∧ k < r.tail ∧ fifo = false
  | .building _ _ => False

/-- The consumer has taken the ticket at `head` away. -/
def Phase.Passes : Phase → Prop
  | .cleared _ _ | .skipping _ => True
  | _ => False

structure RingOk (cf : Conf) (fifo : Bool) (r : RingBuffer) (γ : Actor → Ghost) : Prop where
  le : r.head ≤ r.tail
  room : r.tail ≤ r.head + cf.capacity
  log : r.log.length = r.tail
  size : ∀ m ∈ r.log, m.bytes.length ≤ cf.maxMsgSize
  seq : ∀ i < cf.capacity, (r.entries i).readySeq ≤ r.tail
  cached : r.localProducerCachedHead ≤ r.head
  seen : ∀ t f, γ t = .seen f → f ≤ r.head
  writer : ∀ t k j m, γ t = .writing k j m → k < r.tail ∧ r.log[k]? = some m ∧
    (fifo = true → r.head ≤ k) ∧ (r.head ≤ k → (r.entries (cf.index k)).readySeq ≠ k + 1 ∧
      Written (r.entries (cf.index k)).data m j)
  unique : ∀ t t' k j j' m m', γ t = .writing k j m → γ t' = .writing k j' m' → t = t'
  live : ∀ k, r.head ≤ k → k < r.tail → (∃ t j m, γ t = .writing k j m) ∨ Readable cf r k ∨
    k = r.head ∧ ∃ out ph, γ .consumer = .consumer out ph ∧ ph.Passes
  phase : ∀ out ph, γ .consumer = .consumer out ph → PhaseOk cf fifo r γ ph

/-- What was delivered: each ticket at most once, in order, with the bytes that were sent. -/
structure OutOk (fifo : Bool) (r : RingBuffer) (out : List (ℕ × List UInt8)) : Prop where
  bytes : ∀ d ∈ out, ∃ m, r.log[d.1]? = some m ∧ d.2 = m.bytes
  order : (out.map Prod.fst).Pairwise (· < ·)
  past : ∀ d ∈ out, d.1 < r.head
  all : fifo = true → out.map Prod.fst = List.range r.head

/-! ### Reading one entry after writing another -/

@[simp] theorem setEntry_entries (r : RingBuffer) (i j : ℕ) (e : Entry) :
    (r.setEntry i e).entries j = if j = i then e else r.entries j := by
  simp only [RingBuffer.setEntry, Function.update_apply]

theorem Readable.setEntry {cf : Conf} {r : RingBuffer} {k i : ℕ} {e : Entry} (h : Readable cf r k)
    (hi : cf.index k ≠ i) : Readable cf (r.setEntry i e) k := by
  obtain ⟨m, hl, hs, hw⟩ := h
  refine ⟨m, hl, ?_, ?_⟩
  · rw [setEntry_entries, if_neg hi]
    exact hs
  · rw [setEntry_entries, if_neg hi]
    exact hw

section Moves

variable {cf : Conf} {fifo : Bool} {r : RingBuffer} {γ : Actor → Ghost} {t : Actor} {k j : ℕ}
  {m : Message} {out : List (ℕ × List UInt8)} {ph : Phase}

/-- A ticket that can be read is written by nobody. -/
theorem RingOk.no_writer (h : RingOk cf fifo r γ) (hk : r.head ≤ k) (hr : Readable cf r k)
    (t : Actor) (j : ℕ) (m : Message) : γ t ≠ .writing k j m := by
  intro ht
  obtain ⟨_, _, hs, _⟩ := hr
  exact ((h.writer t k j m ht).2.2.2 hk).1 hs

/-- Live tickets have slots of their own. -/
theorem RingOk.index_ne (h : RingOk cf fifo r γ) {k' : ℕ} (hk : k < r.tail)
    (hin : r.tail ≤ k + cf.capacity) (hk' : r.head ≤ k') (hlt : k' < r.tail) (hne : k' ≠ k) :
    cf.index k' ≠ cf.index k := by
  intro he
  have := h.room
  exact hne (index_inj (by omega) (by omega) he)

/-- Nobody starts or stops writing, and the consumer does not move. -/
theorem RingOk.congr (h : RingOk cf fifo r γ) {γ' : Actor → Ghost}
    (hw : ∀ u k j m, γ' u = .writing k j m ↔ γ u = .writing k j m)
    (hc : γ' .consumer = γ .consumer) (hs : ∀ u f, γ' u = .seen f → f ≤ r.head) :
    RingOk cf fifo r γ' where
  le := h.le
  room := h.room
  log := h.log
  size := h.size
  seq := h.seq
  cached := h.cached
  seen := hs
  writer := fun u k j m hu => h.writer u k j m ((hw u k j m).mp hu)
  unique := fun u u' k j j' m m' hu hu' =>
    h.unique u u' k j j' m m' ((hw u k j m).mp hu) ((hw u' k j' m').mp hu')
  live := fun k hk hlt => by
    rcases h.live k hk hlt with ⟨u, j, m, hu⟩ | hr | hp
    · exact .inl ⟨u, j, m, (hw u k j m).mpr hu⟩
    · exact .inr (.inl hr)
    · exact .inr (.inr (by rwa [hc]))
  phase := fun out ph hγ => by
    have hp := h.phase out ph (hc ▸ hγ)
    cases ph with
    | cleared k m => exact ⟨hp.1, hp.2.1, hp.2.2.1, fun u j m' hu => hp.2.2.2 u j m' ((hw _ _ _ _).mp hu)⟩
    | _ => exact hp

/-- A producer that is not writing looks at `head`, or comes and goes. -/
theorem RingOk.look (h : RingOk cf fifo r γ) (ht : t ≠ .consumer) {g : Ghost}
    (hold : ∀ k j m, γ t ≠ .writing k j m) (hnew : ∀ k j m, g ≠ .writing k j m)
    (hf : ∀ f, g = .seen f → f ≤ r.head) : RingOk cf fifo r (Function.update γ t g) := by
  refine h.congr (fun u k j m => ?_) (Function.update_of_ne (Ne.symm ht) _ _) fun u f hu => ?_
  · by_cases hut : u = t
    · subst hut
      rw [Function.update_self]
      exact ⟨fun hg => absurd hg (hnew k j m), fun hu => absurd hu (hold k j m)⟩
    · rw [Function.update_of_ne hut]
  · by_cases hut : u = t
    · subst hut
      exact hf f (by rwa [Function.update_self] at hu)
    · exact h.seen u f (by rwa [Function.update_of_ne hut] at hu)

/-- The consumer looks around. -/
theorem RingOk.stand (h : RingOk cf fifo r γ) (hγ : γ .consumer = .consumer out ph)
    (hp : ¬ ph.Passes) {out' : List (ℕ × List UInt8)} {ph' : Phase}
    (hph : PhaseOk cf fifo r γ ph') :
    RingOk cf fifo r (Function.update γ .consumer (.consumer out' ph')) := by
  have hw : ∀ u k j m, Function.update γ .consumer (.consumer out' ph') u = .writing k j m
      ↔ γ u = .writing k j m := by
    intro u k j m
    by_cases hu : u = .consumer
    · subst hu
      simp [hγ]
    · rw [Function.update_of_ne hu]
  refine ⟨h.le, h.room, h.log, h.size, h.seq, h.cached, fun u f hu => ?_,
    fun u k j m hu => h.writer u k j m ((hw u k j m).mp hu),
    fun u u' k j j' m m' hu hu' => h.unique u u' k j j' m m' ((hw _ _ _ _).mp hu) ((hw _ _ _ _).mp hu'),
    fun k hk hlt => ?_, fun out₁ ph₁ h₁ => ?_⟩
  · by_cases hc : u = .consumer
    · subst hc
      simp at hu
    · exact h.seen u f (by rwa [Function.update_of_ne hc] at hu)
  · rcases h.live k hk hlt with ⟨u, j, m, hu⟩ | hr | ⟨-, out₁, ph₁, h₁, hpass⟩
    · exact .inl ⟨u, j, m, (hw u k j m).mpr hu⟩
    · exact .inr (.inl hr)
    · rw [hγ] at h₁
      cases h₁
      exact absurd hpass hp
  · rw [Function.update_self] at h₁
    cases h₁
    cases ph' with
    | cleared k m => exact ⟨hph.1, hph.2.1, hph.2.2.1,
        fun u j m' hu => hph.2.2.2 u j m' ((hw _ _ _ _).mp hu)⟩
    | _ => exact hph

theorem Readable.append (hr : Readable cf r k) (m : Message) :
    Readable cf { r with tail := r.tail + 1, log := r.log ++ [m] } k := by
  obtain ⟨m', hl, hs, hw⟩ := hr
  have hlt : k < r.log.length := (List.getElem?_eq_some_iff.mp hl).1
  exact ⟨m', by rwa [List.getElem?_append_left hlt], hs, hw⟩

/-- Taking the next ticket. -/
theorem RingOk.reserve (h : RingOk cf fifo r γ) (ht : t ≠ .consumer) {c : ℕ} (hγ : γ t = .seen c)
    (hc : r.tail < c + cf.capacity) (hm : m.bytes.length ≤ cf.maxMsgSize) :
    RingOk cf fifo { r with tail := r.tail + 1, log := r.log ++ [m] }
      (Function.update γ t (.writing r.tail 0 m)) := by
  have hcons : Function.update γ t (.writing r.tail 0 m) .consumer = γ .consumer :=
    Function.update_of_ne (Ne.symm ht) _ _
  have hkeep : ∀ {k m'}, r.log[k]? = some m' → (r.log ++ [m])[k]? = some m' := fun {k m'} hl => by
    rwa [List.getElem?_append_left (List.getElem?_eq_some_iff.mp hl).1]
  -- a writer after the step is `t` with the new ticket or was one before
  have hw : ∀ u k j m', Function.update γ t (.writing r.tail 0 m) u = .writing k j m' →
      (u = t ∧ k = r.tail ∧ j = 0 ∧ m' = m) ∨ (u ≠ t ∧ γ u = .writing k j m') := by
    intro u k j m' hu
    by_cases hut : u = t
    · subst hut
      rw [Function.update_self] at hu
      cases hu
      exact .inl ⟨rfl, rfl, rfl, rfl⟩
    · exact .inr ⟨hut, by rwa [Function.update_of_ne hut] at hu⟩
  have hf := h.seen t c hγ
  have hle := h.le
  refine ⟨?_, ?_, ?_, ?_, fun i hi => (h.seq i hi).trans (Nat.le_succ _), h.cached, ?_, ?_, ?_, ?_, ?_⟩
  · exact hle.trans (Nat.le_succ _)
  · show r.tail + 1 ≤ r.head + cf.capacity
    omega
  · simp [h.log]
  · intro m' hm'
    rcases List.mem_append.mp hm' with hm' | hm'
    · exact h.size m' hm'
    · rw [List.mem_singleton.mp hm']
      exact hm
  · intro u f hu
    by_cases hut : u = t
    · subst hut
      simp at hu
    · exact h.seen u f (by rwa [Function.update_of_ne hut] at hu)
  · intro u k j m' hu
    rcases hw u k j m' hu with ⟨rfl, rfl, rfl, rfl⟩ | ⟨hut, hu⟩
    · refine ⟨Nat.lt_succ_self _, by simp [← h.log], fun _ => hle, fun _ => ⟨?_, ?_⟩⟩
      · have := h.seq _ (index_lt cf r.tail)
        show (r.entries (cf.index r.tail)).readySeq ≠ r.tail + 1
        omega
      · intro i hi
        omega
    · obtain ⟨hlt, hl, hfifo, hd⟩ := h.writer u k j m' hu
      exact ⟨hlt.trans (Nat.lt_succ_self _), hkeep hl, hfifo, hd⟩
  · intro u u' k j j' m₁ m₂ hu hu'
    rcases hw u k j m₁ hu with ⟨rfl, rfl, -, -⟩ | ⟨-, hv⟩ <;>
      rcases hw u' _ j' m₂ hu' with ⟨rfl, hk, -, -⟩ | ⟨-, hv'⟩
    · rfl
    · exact absurd (h.writer u' _ j' m₂ hv').1 (lt_irrefl _)
    · exact absurd (h.writer u _ j m₁ hv).1 (by omega)
    · exact h.unique u u' k j j' m₁ m₂ hv hv'
  · intro k hk hlt
    by_cases hkt : k = r.tail
    · subst hkt
      exact .inl ⟨t, 0, m, Function.update_self t _ γ⟩
    · have hlt : k < r.tail + 1 := hlt
      rcases h.live k hk (by omega) with ⟨u, j, m', hu⟩ | hr | hp
      · have hut : u ≠ t := by
          rintro rfl
          rw [hγ] at hu
          cases hu
        exact .inl ⟨u, j, m', by rwa [Function.update_of_ne hut]⟩
      · exact .inr (.inl (hr.append m))
      · exact .inr (.inr ⟨hp.1, by rw [hcons]; exact hp.2⟩)
  · intro out ph hph
    have hp := h.phase out ph (hcons ▸ hph)
    cases ph with
    | idle => trivial
    | standing k => exact hp
    | claimed k => exact ⟨hp.1, hp.2.trans (Nat.lt_succ_self _)⟩
    | reading k m' => exact ⟨hp.1, hp.2.1.trans (Nat.lt_succ_self _), hkeep hp.2.2.1, hp.2.2.2.append m⟩
    | cleared k m' =>
      refine ⟨hp.1, hp.2.1.trans (Nat.lt_succ_self _), hkeep hp.2.2.1, fun u j m₁ hu => ?_⟩
      rcases hw u k j m₁ hu with ⟨-, hk, -, -⟩ | ⟨-, hu⟩
      · exact absurd hp.2.1 (by omega)
      · exact hp.2.2.2 u j m₁ hu
    | skipping k => exact ⟨hp.1, hp.2.1.trans (Nat.lt_succ_self _), hp.2.2⟩
    | building f i => exact hp

/-- A writer changes its own slot; `g` says whether it goes on writing. -/
theorem RingOk.ownSlot (h : RingOk cf fifo r γ) (ht : t ≠ .consumer) (hγ : γ t = .writing k j m)
    (hin : r.tail ≤ k + cf.capacity) {e : Entry} {g : Ghost} (hseq : e.readySeq ≤ r.tail)
    (hseen : ∀ f, g = .seen f → f ≤ r.head)
    (hg : (∃ j', g = .writing k j' m ∧ (r.head ≤ k → e.readySeq ≠ k + 1 ∧ Written e.data m j')) ∨
      (∀ k' j' m', g ≠ .writing k' j' m') ∧
        (r.head ≤ k → e.readySeq = k + 1 ∧ Written e.data m m.bytes.length)) :
    RingOk cf fifo (r.setEntry (cf.index k) e) (Function.update γ t g) := by
  obtain ⟨hkt, hlog, hfifo, hd⟩ := h.writer t k j m hγ
  have hcons : Function.update γ t g .consumer = γ .consumer :=
    Function.update_of_ne (Ne.symm ht) _ _
  -- the other live tickets are in other slots
  have hother : ∀ k', r.head ≤ k' → k' < r.tail → k' ≠ k → cf.index k' ≠ cf.index k :=
    fun k' hk' hlt hne => h.index_ne hkt hin hk' hlt hne
  have hread : ∀ k', r.head ≤ k' → k' < r.tail → Readable cf r k' →
      Readable cf (r.setEntry (cf.index k) e) k' := by
    intro k' hk' hlt hr
    refine hr.setEntry (hother k' hk' hlt ?_)
    rintro rfl
    exact h.no_writer hk' hr t j m hγ
  have hw : ∀ u k' j' m', Function.update γ t g u = .writing k' j' m' →
      (u = t ∧ g = .writing k' j' m' ∧ k' = k ∧ m' = m) ∨ (u ≠ t ∧ γ u = .writing k' j' m') := by
    intro u k' j' m' hu
    by_cases hut : u = t
    · subst hut
      rw [Function.update_self] at hu
      rcases hg with ⟨j₁, rfl, -⟩ | ⟨hno, -⟩
      · cases hu
        exact .inl ⟨rfl, rfl, rfl, rfl⟩
      · exact absurd hu (hno k' j' m')
    · exact .inr ⟨hut, by rwa [Function.update_of_ne hut] at hu⟩
  refine ⟨h.le, h.room, h.log, h.size, fun i hi => ?_, h.cached, ?_, ?_, ?_, ?_, ?_⟩
  · rw [setEntry_entries]
    split
    · exact hseq
    · exact h.seq i hi
  · intro u f hu
    by_cases hut : u = t
    · subst hut
      exact hseen f (by rwa [Function.update_self] at hu)
    · exact h.seen u f (by rwa [Function.update_of_ne hut] at hu)
  · intro u k' j' m' hu
    rcases hw u k' j' m' hu with ⟨rfl, hgw, rfl, rfl⟩ | ⟨hut, hu⟩
    · refine ⟨hkt, hlog, hfifo, fun hk => ?_⟩
      rcases hg with ⟨j₁, rfl, he⟩ | ⟨hno, -⟩
      · cases hgw
        rw [setEntry_entries, if_pos rfl]
        exact he hk
      · exact absurd hgw (hno _ _ _)
    · obtain ⟨hlt', hl', hf', hd'⟩ := h.writer u k' j' m' hu
      refine ⟨hlt', hl', hf', fun hk' => ?_⟩
      have hne : k' ≠ k := by
        rintro rfl
        exact hut (h.unique u t k' j' j m' m hu hγ)
      rw [setEntry_entries, if_neg (hother k' hk' hlt' hne)]
      exact hd' hk'
  · intro u u' k' j₁ j₂ m₁ m₂ hu hu'
    rcases hw u k' j₁ m₁ hu with ⟨rfl, -, rfl, rfl⟩ | ⟨-, hv⟩ <;>
      rcases hw u' _ j₂ m₂ hu' with ⟨rfl, -, hk, -⟩ | ⟨-, hv'⟩
    · rfl
    · exact h.unique _ u' _ _ _ _ _ hγ hv'
    · subst hk
      exact h.unique u _ _ _ _ _ _ hv hγ
    · exact h.unique u u' k' j₁ j₂ m₁ m₂ hv hv'
  · intro k' hk' hlt
    by_cases hkk : k' = k
    · subst hkk
      rcases hg with ⟨j₁, rfl, -⟩ | ⟨-, he⟩
      · exact .inl ⟨t, j₁, m, Function.update_self t _ γ⟩
      · refine .inr (.inl ⟨m, hlog, ?_⟩)
        rw [setEntry_entries, if_pos rfl]
        exact he hk'
    · rcases h.live k' hk' hlt with ⟨u, j', m', hu⟩ | hr | hp
      · have hut : u ≠ t := by
          rintro rfl
          rw [hγ] at hu
          cases hu
          exact hkk rfl
        exact .inl ⟨u, j', m', by rwa [Function.update_of_ne hut]⟩
      · exact .inr (.inl (hread k' hk' hlt hr))
      · exact .inr (.inr ⟨hp.1, by rw [hcons]; exact hp.2⟩)
  · intro out ph hph
    have hp := h.phase out ph (hcons ▸ hph)
    cases ph with
    | idle => trivial
    | standing k' | claimed k' => exact hp
    | reading k' m' => exact ⟨hp.1, hp.2.1, hp.2.2.1, hread k' hp.1.le hp.2.1 hp.2.2.2⟩
    | cleared k' m' =>
      refine ⟨hp.1, hp.2.1, hp.2.2.1, fun u j' m₁ hu => ?_⟩
      rcases hw u k' j' m₁ hu with ⟨-, -, rfl, -⟩ | ⟨-, hu⟩
      · exact hp.2.2.2 t j m hγ
      · exact hp.2.2.2 u j' m₁ hu
    | skipping k' => exact hp
    | building f i => exact hp

/-- The consumer takes the ticket at `head` away: its `ready_seq` goes back to `0`. -/
theorem RingOk.clear (h : RingOk cf fifo r γ) (hγ : γ .consumer = .consumer out ph)
    (hk : r.head = k) (hlt : k < r.tail) {ph' : Phase} (hpass : ph'.Passes)
    (hph : PhaseOk cf fifo r γ ph') :
    RingOk cf fifo (r.setEntry (cf.index k) { r.entries (cf.index k) with readySeq := 0 })
      (Function.update γ .consumer (.consumer out ph')) := by
  have hw : ∀ u k j m, Function.update γ .consumer (.consumer out ph') u = .writing k j m
      ↔ γ u = .writing k j m := by
    intro u k j m
    by_cases hu : u = .consumer
    · subst hu
      simp [hγ]
    · rw [Function.update_of_ne hu]
  have hroom := h.room
  have hother : ∀ k', r.head ≤ k' → k' < r.tail → k' ≠ k → cf.index k' ≠ cf.index k :=
    fun k' hk' hlt' hne => h.index_ne hlt (by omega) hk' hlt' hne
  refine ⟨h.le, h.room, h.log, h.size, fun i hi => ?_, h.cached, fun u f hu => ?_, fun u k' j m hu => ?_,
    fun u u' k j j' m m' hu hu' => h.unique u u' k j j' m m' ((hw _ _ _ _).mp hu) ((hw _ _ _ _).mp hu'),
    fun k' hk' hlt' => ?_, fun out₁ ph₁ h₁ => ?_⟩
  · rw [setEntry_entries]
    split
    · exact Nat.zero_le _
    · exact h.seq i hi
  · by_cases hc : u = .consumer
    · subst hc
      simp at hu
    · exact h.seen u f (by rwa [Function.update_of_ne hc] at hu)
  · obtain ⟨hlt', hl, hf, hd⟩ := h.writer u k' j m ((hw _ _ _ _).mp hu)
    refine ⟨hlt', hl, hf, fun hk' => ?_⟩
    rw [setEntry_entries]
    split
    · rename_i he
      exact ⟨Nat.succ_ne_zero _ |>.symm, he ▸ (hd hk').2⟩
    · exact hd hk'
  · by_cases hkk : k' = k
    · exact .inr (.inr ⟨hkk.trans hk.symm, out, ph', Function.update_self _ _ _, hpass⟩)
    · rcases h.live k' hk' hlt' with ⟨u, j, m, hu⟩ | hr | ⟨hhead, -⟩
      · exact .inl ⟨u, j, m, (hw _ _ _ _).mpr hu⟩
      · exact .inr (.inl (hr.setEntry (hother k' hk' hlt' hkk)))
      · exact absurd (hhead.trans hk) hkk
  · rw [Function.update_self] at h₁
    cases h₁
    cases ph' with
    | cleared k' m =>
      exact ⟨hph.1, hph.2.1, hph.2.2.1,
        fun u j m' hu => hph.2.2.2 u j m' ((hw _ _ _ _).mp hu)⟩
    | skipping k' => exact hph
    | idle | standing _ | claimed _ | reading _ _ | building _ _ => exact hpass.elim

/-- The consumer moves on. -/
theorem RingOk.advance (h : RingOk cf fifo r γ) (hγ : γ .consumer = .consumer out ph)
    (hk : r.head = k) (hlt : k < r.tail)
    (hno : fifo = true → ∀ u j m, γ u ≠ .writing k j m) (out' : List (ℕ × List UInt8)) :
    RingOk cf fifo { r with head := k + 1 }
      (Function.update γ .consumer (.consumer out' .idle)) := by
  have hw : ∀ u k j m, Function.update γ .consumer (.consumer out' .idle) u = .writing k j m
      ↔ γ u = .writing k j m := by
    intro u k j m
    by_cases hu : u = .consumer
    · subst hu
      simp [hγ]
    · rw [Function.update_of_ne hu]
  have hroom := h.room
  have hcached := h.cached
  refine ⟨hlt, ?_, h.log, h.size, h.seq, ?_, fun u f hu => ?_, fun u k' j m hu => ?_,
    fun u u' k j j' m m' hu hu' => h.unique u u' k j j' m m' ((hw _ _ _ _).mp hu) ((hw _ _ _ _).mp hu'),
    fun k' hk' hlt' => ?_, fun out₁ ph₁ h₁ => ?_⟩
  · show r.tail ≤ k + 1 + cf.capacity
    omega
  · show r.localProducerCachedHead ≤ k + 1
    omega
  · by_cases hc : u = .consumer
    · subst hc
      simp at hu
    · have := h.seen u f (by rwa [Function.update_of_ne hc] at hu)
      show f ≤ k + 1
      omega
  · have hu := (hw _ _ _ _).mp hu
    obtain ⟨hlt', hl, hf, hd⟩ := h.writer u k' j m hu
    refine ⟨hlt', hl, fun hfifo => ?_, fun hk' => hd ?_⟩
    · have := hf hfifo
      have hne : k' ≠ k := by
        rintro rfl
        exact hno hfifo u j m hu
      show k + 1 ≤ k'
      omega
    · have hk' : k + 1 ≤ k' := hk'
      omega
  · have hk' : k + 1 ≤ k' := hk'
    rcases h.live k' (by omega) hlt' with ⟨u, j, m, hu⟩ | hr | ⟨hhead, -⟩
    · exact .inl ⟨u, j, m, (hw _ _ _ _).mpr hu⟩
    · exact .inr (.inl hr)
    · omega
  · rw [Function.update_self] at h₁
    cases h₁
    trivial

/-- The ticket of a committed slot at `head`. -/
theorem RingOk.ready (h : RingOk cf fifo r γ) (hγ : γ .consumer = .consumer out ph)
    (hp : ¬ ph.Passes) (hs : (r.entries (cf.index r.head)).readySeq = r.head + 1) :
    r.head < r.tail ∧ Readable cf r r.head := by
  have hlt : r.head < r.tail := by
    have := h.seq _ (index_lt cf r.head)
    omega
  refine ⟨hlt, ?_⟩
  rcases h.live r.head le_rfl hlt with ⟨u, j, m, hu⟩ | hr | ⟨-, out₁, ph₁, h₁, hpass⟩
  · exact absurd hs ((h.writer u _ j m hu).2.2.2 le_rfl).1
  · exact hr
  · rw [hγ] at h₁
    cases h₁
    exact absurd hpass hp

end Moves

/-! ### What was delivered -/

theorem OutOk.append {fifo : Bool} {r : RingBuffer} {out : List (ℕ × List UInt8)}
    (h : OutOk fifo r out) (m : Message) :
    OutOk fifo { r with tail := r.tail + 1, log := r.log ++ [m] } out := by
  refine ⟨fun d hd => ?_, h.order, h.past, h.all⟩
  obtain ⟨m', hl, hb⟩ := h.bytes d hd
  exact ⟨m', by rwa [List.getElem?_append_left (List.getElem?_eq_some_iff.mp hl).1], hb⟩

/-- One more message. -/
theorem OutOk.deliver {fifo : Bool} {r : RingBuffer} {out : List (ℕ × List UInt8)} {k : ℕ}
    {m : Message} (h : OutOk fifo r out) (hk : r.head = k) (hl : r.log[k]? = some m) :
    OutOk fifo { r with head := k + 1 } (out ++ [(k, m.bytes)]) := by
  subst hk
  refine ⟨fun d hd => ?_, ?_, fun d hd => ?_, fun hf => ?_⟩
  · rcases List.mem_append.mp hd with hd | hd
    · exact h.bytes d hd
    · rw [List.mem_singleton.mp hd]
      exact ⟨m, hl, rfl⟩
  · rw [List.map_append, List.pairwise_append]
    refine ⟨h.order, by simp, ?_⟩
    intro a ha b hb
    obtain ⟨d, hd, rfl⟩ := List.mem_map.mp ha
    obtain rfl : b = r.head := by simpa using hb
    exact h.past d hd
  · rcases List.mem_append.mp hd with hd | hd
    · exact (h.past d hd).trans (Nat.lt_succ_self _)
    · rw [List.mem_singleton.mp hd]
      exact Nat.lt_succ_self _
  · rw [List.map_append, h.all hf, List.range_succ]
    rfl

/-- A skipped ticket is not delivered. -/
theorem OutOk.skip {r : RingBuffer} {out : List (ℕ × List UInt8)} {k : ℕ}
    (h : OutOk false r out) (hk : r.head = k) : OutOk false { r with head := k + 1 } out := by
  subst hk
  exact ⟨h.bytes, h.order, fun d hd => (h.past d hd).trans (Nat.lt_succ_self _), by simp⟩

end Ring

end UbsAtomic
