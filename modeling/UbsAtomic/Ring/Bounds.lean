import UbsAtomic.Conc.Part
import UbsAtomic.Ring.Billboard
import UbsAtomic.Ring.Enqueue

/-! Where an enqueue writes, address by address.

        ring object        slot 0            slot 1                     slot capacity - 1
        ┌───────────────┬─────────────────┬─────────────────┬── … ──┬─────────────────┐
        │ head, tail, … │ seq │ data …    │ seq │ data …    │       │ seq │ data …    │
        └───────────────┴─────────────────┴─────────────────┴── … ──┴─────────────────┘
        0             dataOffset        + stride

    The calls are those of the ring, with pointers and lengths as the source has them: header and
    body are bytes somewhere, `body_len` is a 32-bit number that nobody has checked, and a store goes
    to an address. The size check adds on 32 bits. -/

namespace UbsAtomic

open Conc Conc.Prog

namespace Ring

open Billboard (cachelineSize entryHeaderSize dataOffset)

/-- `entry_stride_`. -/
def Conf.stride (cf : Conf) : ℕ :=
  let raw := entryHeaderSize + cf.maxMsgSize
  if raw % cachelineSize ≠ 0 then raw + (cachelineSize - raw % cachelineSize) else raw

theorem le_stride (cf : Conf) : entryHeaderSize + cf.maxMsgSize ≤ cf.stride := by
  unfold Conf.stride
  dsimp only
  split
  · exact Nat.le_add_right _ _
  · exact le_rfl

/-- The address of the slot of ticket `k`. -/
def Conf.entryAddr (cf : Conf) (k : ℕ) : ℕ := dataOffset + cf.index k * cf.stride

namespace Raw

/-! ### The memory -/

/-- The counters of the ring and the caches, and the bytes from the ring object on. -/
structure Flat where
  mem : Mem
  bytes : ℕ → UInt8

/-- A store for a ticket says where it goes and how many bytes it takes. -/
inductive Access where
  | step
  | store (ticket addr count : ℕ)
  deriving DecidableEq

instance : Inhabited Access := ⟨.step⟩

abbrev Call := Prog Flat Access

def memAt : Place Flat Mem := ⟨(·.mem), fun v f => { f with mem := v }⟩

def byteAt (addr : ℕ) : Place Flat UInt8 :=
  ⟨fun f => f.bytes addr, fun v f => { f with bytes := Function.update f.bytes addr v }⟩

/-- Eight bytes, written at once. -/
def wordAt (addr : ℕ) : Place Flat ℕ :=
  ⟨fun f => readLe f.bytes addr 8, fun v f => { f with bytes := putBytes f.bytes (leBytes v 8) addr }⟩

/-- A step that only concerns counters and caches. -/
def plain {α : Type} (p : Ring.Call α) : Call α := within memAt .step p

/-! ### The calls -/

variable (cf : Conf)

/-- `memcpy` of the bytes `i`, `i + 1`, … of `src`, for ticket `k`. -/
def memcpy (k dst : ℕ) (src : ℕ → UInt8) : ℕ → ℕ → Call Unit
  | _, 0 => return ()
  | i, count + 1 => do
    storeAt (.store k (dst + i) 1) (byteAt (dst + i)) (src i)
    memcpy k dst src (i + 1) count

/-- Header, body if there is one, then `ready_seq`. -/
def writeEntry (hdr body : ℕ → UInt8) (bodyLen : UInt32) (k : ℕ) : Call Unit := do
  let data := cf.entryAddr k + entryHeaderSize
  if bodyLen > 0 then
    memcpy k data hdr 0 msgHeaderLen
    memcpy k (data + msgHeaderLen) body 0 bodyLen.toNat
  else
    memcpy k data hdr 0 msgHeaderLen
  storeAt (.store k (cf.entryAddr k) 8) (wordAt (cf.entryAddr k)) (k + 1)

/-- The full check and the compare-and-swap on `tail_`; `none` is a full ring. -/
def take (e : Label) (cachedHead : Place Mem ℕ) (currTail : ℕ) : Call (Option (Bool × ℕ)) := do
  let room ← plain (hasRoom cf e cachedHead currTail)
  if room = false then
    return none
  let taken ← plain (casWeak tailAt currTail (currTail + 1))
  return some taken

/-- One round of the reservation loop of `enqueue_local`. -/
def reserveLocalRound (currTail : ℕ) : Call (ℕ ⊕ Option ℕ) := do
  let taken ← take cf .step localCachedHeadAt currTail
  match taken with
  | none => return .inr none
  | some (true, _) => return .inr (some currTail)
  | some (false, tail) => return .inl tail

/-- The checks that both enqueues begin with, for a header at `hdr` and a body at `body`; a null
    pointer is `none`. The total length is a `uint32_t`. -/
def checked (hdr body : Option (ℕ → UInt8)) (bodyLen : UInt32)
    (send : (ℕ → UInt8) → (ℕ → UInt8) → Call ℤ) : Call ℤ :=
  match hdr with
  | none => return eInval
  | some hdr =>
    if bodyLen > 0 ∧ body.isNone then
      return eInval
    else if (16 + bodyLen : UInt32).toNat > cf.maxMsgSize then
      return eMsgSize
    else
      send hdr (body.getD fun _ => 0)

/-- What `enqueue_local` does with its ticket. -/
def sendLocal (hdr body : ℕ → UInt8) (bodyLen : UInt32) : Option ℕ → Call ℤ
  | none => return ubCommErrRingFull
  | some k => do
    writeEntry cf hdr body bodyLen k
    plain (flowResultAfterEnqueue cf (k + 1) localCachedHeadAt)

/-- `enqueue_local`. -/
def enqueueLocal (hdr body : Option (ℕ → UInt8)) (bodyLen : UInt32) : Call ℤ :=
  checked cf hdr body bodyLen fun hdr body => do
    let tail ← plain (load tailAt)
    let ticket ← loop (reserveLocalRound cf) tail
    sendLocal cf hdr body bodyLen ticket

/-- One round of the reservation loop of `enqueue_remote`. -/
def reserveRemoteRound (n : ℕ) (st : ℕ × ℕ) : Call (ℕ × ℕ ⊕ Except ℤ ℕ) := do
  if st.1 > maxCasRetries then
    return .inr (.error ubCommErrRingBusy)
  let taken ← take cf (.shadow n) (shadowHeadAt n) st.2
  match taken with
  | none => return .inr (.error ubCommErrRingFull)
  | some (true, _) => return .inr (.ok st.2)
  | some (false, tail) => return .inl (st.1 + 1, tail)

/-- What `enqueue_remote` does with its ticket. -/
def sendRemote (n : ℕ) (hdr body : ℕ → UInt8) (bodyLen : UInt32) : Except ℤ ℕ → Call ℤ
  | .error e => return e
  | .ok k => do
    writeEntry cf hdr body bodyLen k
    plain (flowResultAfterEnqueueCached cf (k + 1) n)

/-- `enqueue_remote`, for producer node `n`; the ring itself is not a null pointer. -/
def enqueueRemote (n : ℕ) (hdr body : Option (ℕ → UInt8)) (bodyLen : UInt32) : Call ℤ :=
  checked cf hdr body bodyLen fun hdr body => do
    let tail ← plain (load tailAt)
    let ticket ← loop (reserveRemoteRound cf n) (0, tail)
    sendRemote cf n hdr body bodyLen ticket

/-! ### What an enqueue should do -/

/-- A ticket goes to the caller. -/
def Takes (m : OwnStep Flat Access) (k : ℕ) : Prop :=
  m.before.mem.ring.tail = k ∧ m.after.mem.ring.tail = k + 1

/-- `count` bytes at `addr` are in the slot of ticket `k`. -/
def InSlot (k addr count : ℕ) : Prop :=
  cf.entryAddr k ≤ addr ∧ addr + count ≤ cf.entryAddr k + cf.stride

/-- The pointers that both calls reject. -/
def Null (hdr body : Option (ℕ → UInt8)) (bodyLen : UInt32) : Prop :=
  hdr = none ∨ bodyLen > 0 ∧ body.isNone

/-- The call takes a ticket only for a message that fits, turns down any other one before it looks
    at the ring, and writes to the slot of a ticket it has taken and nowhere else. This holds at
    every moment of the call, whatever the others do in between. -/
structure Bounded (hdr body : Option (ℕ → UInt8)) (bodyLen : UInt32) (p : Call ℤ) : Prop where
  accepts : ∀ t q, Begun p t q → ∀ m ∈ t, m.after.mem.ring.tail ≠ m.before.mem.ring.tail →
    msgHeaderLen + bodyLen.toNat ≤ cf.maxMsgSize
  refuses : cf.maxMsgSize < msgHeaderLen + bodyLen.toNat → ∀ t r, Traced p t r →
    t = [] ∧ (Null hdr body bodyLen ∧ r = eInval ∨ ¬ Null hdr body bodyLen ∧ r = eMsgSize)
  inside : ∀ t q, Begun p t q → ∀ m ∈ t, ∀ k a c, m.label = .store k a c →
    (∃ m' ∈ t, Takes m' k) ∧ InSlot cf k a c
  nowhere : ∀ t q, Begun p t q → ∀ m ∈ t, ∀ b, m.after.bytes b ≠ m.before.bytes b →
    ∃ k a c, m.label = .store k a c ∧ a ≤ b ∧ b < a + c

variable {cf}

/-! ### Steps and what they write -/

/-- Nothing is written, or something that is `good`, and to no other address. -/
def Touches (good : ℕ → ℕ → ℕ → Prop) : Access → Flat → Flat → Prop
  | .step, f, f' => f'.bytes = f.bytes
  | .store k a c, f, f' => good k a c ∧ ∀ b, f'.bytes b ≠ f.bytes b → a ≤ b ∧ b < a + c

variable {good good' : ℕ → ℕ → ℕ → Prop}

theorem Touches.mono {e : Access} {f f' : Flat} (h : Touches good e f f')
    (hg : ∀ k a c, good k a c → good' k a c) : Touches good' e f f' := by
  cases e with
  | step => exact h
  | store k a c => exact ⟨hg k a c h.1, h.2⟩

theorem obeys_plain {α : Type} (p : Ring.Call α) : Obeys (Touches good) (plain p) := by
  unfold plain
  induction p with
  | ret a => trivial
  | act e f k ih =>
    refine ⟨fun x c x' b hf => ?_, ih⟩
    obtain ⟨r, -, hr⟩ := Option.map_eq_some_iff.mp hf
    cases hr
    rfl
  | iter body i k ihb ihk => exact ⟨ihb, ihk⟩

theorem putBytes_of_lt {data : ℕ → UInt8} {bs : List UInt8} {off b : ℕ} (hb : b < off) :
    putBytes data bs off b = data b := by
  induction bs generalizing data off with
  | nil => rfl
  | cons x bs ih =>
    rw [putBytes, ih (by omega)]
    exact Function.update_of_ne (by omega) _ _

theorem putBytes_of_ge {data : ℕ → UInt8} {bs : List UInt8} {off b : ℕ} (hb : off + bs.length ≤ b) :
    putBytes data bs off b = data b := by
  induction bs generalizing data off with
  | nil => rfl
  | cons x bs ih =>
    rw [List.length_cons] at hb
    rw [putBytes, ih (by omega)]
    exact Function.update_of_ne (by omega) _ _

theorem obeys_memcpy {k dst : ℕ} {src : ℕ → UInt8} {i count : ℕ}
    (hg : ∀ j, i ≤ j → j < i + count → good k (dst + j) 1) :
    Obeys (Touches good) (memcpy k dst src i count) := by
  induction count generalizing i with
  | zero => trivial
  | succ count ih =>
    refine Obeys.bind (.write fun f => ⟨hg i le_rfl (by omega), fun b hb => ?_⟩) fun _ =>
      ih fun j hj hj' => hg j (by omega) (by omega)
    have hb : b = dst + i := by
      by_contra hne
      exact hb (Function.update_of_ne hne _ _)
    omega

/-- A message that fits stays in its slot. -/
theorem obeys_writeEntry {hdr body : ℕ → UInt8} {bodyLen : UInt32} {k : ℕ}
    (hfits : msgHeaderLen + bodyLen.toNat ≤ cf.maxMsgSize) :
    Obeys (Touches fun k' a c => k' = k ∧ InSlot cf k a c) (writeEntry cf hdr body bodyLen k) := by
  have hstride := le_stride cf
  unfold msgHeaderLen at hfits
  unfold entryHeaderSize at hstride
  have hheader : Obeys (Touches fun k' a c => k' = k ∧ InSlot cf k a c)
      (memcpy k (cf.entryAddr k + entryHeaderSize) hdr 0 msgHeaderLen) := by
    refine obeys_memcpy fun j _ hj => ⟨rfl, ?_, ?_⟩
    · omega
    · unfold entryHeaderSize
      unfold msgHeaderLen at hj
      omega
  have hbody : Obeys (Touches fun k' a c => k' = k ∧ InSlot cf k a c)
      (memcpy k (cf.entryAddr k + entryHeaderSize + msgHeaderLen) body 0 bodyLen.toNat) := by
    refine obeys_memcpy fun j _ hj => ⟨rfl, ?_, ?_⟩
    · omega
    · unfold entryHeaderSize msgHeaderLen
      omega
  have hseq : Obeys (Touches fun k' a c => k' = k ∧ InSlot cf k a c)
      (storeAt (.store k (cf.entryAddr k) 8) (wordAt (cf.entryAddr k)) (k + 1)) := by
    refine .write fun f => ⟨⟨rfl, le_rfl, by omega⟩, fun b hb => ?_⟩
    by_contra hout
    rcases Nat.lt_or_ge b (cf.entryAddr k) with hlt | hge
    · exact hb (putBytes_of_lt hlt)
    · exact hb (putBytes_of_ge (by rw [length_leBytes]; omega))
  unfold writeEntry
  split
  · exact hheader.bind fun _ => hbody.bind fun _ => hseq
  · exact hheader.bind fun _ => hseq

/-! ### The ticket -/

theorem takes_of_cas {currTail x : ℕ} {t : List (OwnStep Flat Access)}
    (h : Traced (plain (casWeak tailAt currTail (currTail + 1))) t (true, x)) :
    ∃ m ∈ t, Takes m currTail := by
  cases h with
  | act hf hret =>
    cases hret
    obtain ⟨⟨s, b⟩, hr, he⟩ := Option.map_eq_some_iff.mp hf
    cases he
    refine ⟨_, List.mem_singleton_self _, ?_⟩
    dsimp only at hr
    split_ifs at hr with hx
    · cases hr
      exact ⟨hx.1, rfl⟩
    · cases hr

/-- Whoever has a ticket has taken it. -/
theorem takes_of_take {e : Label} {p : Place Mem ℕ} {currTail x : ℕ} {t : List (OwnStep Flat Access)}
    (h : Traced (take cf e p currTail) t (some (true, x))) : ∃ m ∈ t, Takes m currTail := by
  obtain ⟨t₁, t₂, room, rfl, -, hrest⟩ := h.of_bind
  split at hrest
  · cases hrest
  · obtain ⟨t₃, t₄, taken, rfl, hcas, hret⟩ := hrest.of_bind
    cases hret
    obtain ⟨m, hm, hk⟩ := takes_of_cas hcas
    exact ⟨m, by simp [hm], hk⟩

theorem takes_of_localRound {i k : ℕ} {t : List (OwnStep Flat Access)}
    (h : Traced (reserveLocalRound cf i) t (.inr (some k))) : ∃ m ∈ t, Takes m k := by
  obtain ⟨t₁, t₂, taken, rfl, htake, hret⟩ := h.of_bind
  split at hret
  · cases hret
  · cases hret
    obtain ⟨m, hm, hk⟩ := takes_of_take htake
    exact ⟨m, by simp [hm], hk⟩
  · cases hret

theorem takes_of_remoteRound {n k : ℕ} {i : ℕ × ℕ} {t : List (OwnStep Flat Access)}
    (h : Traced (reserveRemoteRound cf n i) t (.inr (.ok k))) : ∃ m ∈ t, Takes m k := by
  unfold reserveRemoteRound at h
  split at h
  · cases h
  obtain ⟨t₁, t₂, taken, rfl, htake, hret⟩ := h.of_bind
  split at hret
  · cases hret
  · cases hret
    obtain ⟨m, hm, hk⟩ := takes_of_take htake
    exact ⟨m, by simp [hm], hk⟩
  · cases hret

/-- The last round of a loop decides. -/
theorem takes_of_rounds {ι β : Type} {round : ι → Call (ι ⊕ β)} {b : β} {k : ℕ}
    (hround : ∀ i t, Traced (round i) t (.inr b) → ∃ m ∈ t, Takes m k) {i : ι}
    {t : List (OwnStep Flat Access)} (h : Rounds round i t b) : ∃ m ∈ t, Takes m k := by
  induction h with
  | last h => exact hround _ _ h
  | more _ _ ih =>
    obtain ⟨m, hm, hk⟩ := ih hround
    exact ⟨m, List.mem_append_right _ hm, hk⟩

/-! ### The whole call -/

theorem obeys_take {e : Label} {p : Place Mem ℕ} {currTail : ℕ} :
    Obeys (Touches good) (take cf e p currTail) := by
  refine (obeys_plain _).bind fun room => Obeys.ite trivial ?_
  exact (obeys_plain _).bind fun _ => trivial

theorem obeys_localRound (i : ℕ) : Obeys (Touches good) (reserveLocalRound cf i) := by
  refine obeys_take.bind fun taken => ?_
  rcases taken with _ | ⟨_ | _, _⟩
  · trivial
  · trivial
  · trivial

theorem obeys_remoteRound {n : ℕ} (i : ℕ × ℕ) : Obeys (Touches good) (reserveRemoteRound cf n i) := by
  refine Obeys.ite trivial (obeys_take.bind fun taken => ?_)
  rcases taken with _ | ⟨_ | _, _⟩
  · trivial
  · trivial
  · trivial

/-- A call that reserves in rounds and writes what it has reserved. -/
theorem inside_of_parts {ι β : Type} {first : Call ι} {round : ι → Call (ι ⊕ β)} {rest : β → Call ℤ}
    (ticket : β → ℕ → Prop) (hfirst : Obeys (Touches fun _ _ _ => False) first)
    (hround : ∀ i, Obeys (Touches fun _ _ _ => False) (round i))
    (htakes : ∀ b k i t, ticket b k → Traced (round i) t (.inr b) → ∃ m ∈ t, Takes m k)
    (hrest : ∀ b, Obeys (Touches fun k a c => ticket b k ∧ InSlot cf k a c) (rest b))
    {t : List (OwnStep Flat Access)} {q : Call ℤ}
    (h : Begun (first.bind fun i => (loop round i).bind rest) t q) :
    ∀ m ∈ t, Touches (fun k a c => (∃ m' ∈ t, Takes m' k) ∧ InSlot cf k a c)
      m.label m.before m.after := by
  have hnone : ∀ {e : Access} {f f' : Flat} {g : ℕ → ℕ → ℕ → Prop},
      Touches (fun _ _ _ => False) e f f' → Touches g e f f' := fun h => h.mono fun _ _ _ => False.elim
  rcases h.of_bind with ⟨q', h⟩ | ⟨t₁, t₂, i, rfl, h₁, h₂⟩
  · intro m hm
    exact hnone (hfirst.begun h m hm)
  intro m hm
  rcases List.mem_append.mp hm with hm | hm
  · exact hnone (hfirst.begun h₁.begun_ret m hm)
  rcases h₂.of_bind with ⟨q', h₂⟩ | ⟨t₃, t₄, b, rfl, h₃, h₄⟩
  · exact hnone ((Obeys.loop hround).begun h₂ m hm)
  rcases List.mem_append.mp hm with hm | hm
  · exact hnone ((Obeys.loop hround).begun h₃.begun_ret m hm)
  refine ((hrest b).begun h₄ m hm).mono ?_
  rintro k a c ⟨hk, hin⟩
  obtain ⟨m', hm', htake⟩ := takes_of_rounds (fun i t => htakes b k i t hk) (traced_loop_iff.mp h₃)
  exact ⟨⟨m', by simp [hm'], htake⟩, hin⟩

/-- What `Touches` says of every step is what `Bounded` asks for, if the message fits. -/
theorem bounded_of_touches {hdr body : Option (ℕ → UInt8)} {bodyLen : UInt32} {p : Call ℤ}
    (hfits : msgHeaderLen + bodyLen.toNat ≤ cf.maxMsgSize)
    (h : ∀ t q, Begun p t q → ∀ m ∈ t,
      Touches (fun k a c => (∃ m' ∈ t, Takes m' k) ∧ InSlot cf k a c) m.label m.before m.after) :
    Bounded cf hdr body bodyLen p where
  accepts _ _ _ _ _ _ := hfits
  refuses hbig := absurd hbig (by omega)
  inside t q hb m hm k a c he := by
    have hm := h t q hb m hm
    rw [he] at hm
    exact hm.1
  nowhere t q hb m hm b hne := by
    have hm := h t q hb m hm
    cases he : m.label with
    | step =>
      rw [he] at hm
      exact absurd (congrFun hm b) hne
    | store k a c =>
      rw [he] at hm
      exact ⟨k, a, c, rfl, hm.2 b hne⟩

/-- A call that only returns. -/
theorem bounded_ret {hdr body : Option (ℕ → UInt8)} {bodyLen : UInt32} {r : ℤ}
    (hr : cf.maxMsgSize < msgHeaderLen + bodyLen.toNat →
      Null hdr body bodyLen ∧ r = eInval ∨ ¬ Null hdr body bodyLen ∧ r = eMsgSize) :
    Bounded cf hdr body bodyLen (.ret r) where
  accepts t q h m hm := by
    rw [h.of_ret] at hm
    cases hm
  refuses hbig t r' h := by
    obtain ⟨rfl, rfl⟩ := h.of_ret
    exact ⟨rfl, hr hbig⟩
  inside t q h m hm := by
    rw [h.of_ret] at hm
    cases hm
  nowhere t q h m hm := by
    rw [h.of_ret] at hm
    cases hm

theorem obeys_sendLocal {hdr body : ℕ → UInt8} {bodyLen : UInt32}
    (hfits : msgHeaderLen + bodyLen.toNat ≤ cf.maxMsgSize) (b : Option ℕ) :
    Obeys (Touches fun k a c => b = some k ∧ InSlot cf k a c) (sendLocal cf hdr body bodyLen b) := by
  cases b with
  | none => trivial
  | some k =>
    refine Obeys.bind (Obeys.mono (obeys_writeEntry hfits) ?_) fun _ => obeys_plain _
    rintro e f f' h
    refine h.mono ?_
    rintro k' a c ⟨rfl, hin⟩
    exact ⟨rfl, hin⟩

theorem obeys_sendRemote {hdr body : ℕ → UInt8} {bodyLen : UInt32} {n : ℕ}
    (hfits : msgHeaderLen + bodyLen.toNat ≤ cf.maxMsgSize) (b : Except ℤ ℕ) :
    Obeys (Touches fun k a c => b = .ok k ∧ InSlot cf k a c) (sendRemote cf n hdr body bodyLen b) := by
  cases b with
  | error e => trivial
  | ok k =>
    refine Obeys.bind (Obeys.mono (obeys_writeEntry hfits) ?_) fun _ => obeys_plain _
    rintro e f f' h
    refine h.mono ?_
    rintro k' a c ⟨rfl, hin⟩
    exact ⟨rfl, hin⟩

/-! ### The size check -/

section Check

variable {hdr body : Option (ℕ → UInt8)} {bodyLen : UInt32}
  {send : (ℕ → UInt8) → (ℕ → UInt8) → Call ℤ}

theorem checked_of_null (h : Null hdr body bodyLen) :
    checked cf hdr body bodyLen send = .ret eInval := by
  cases hdr with
  | none => rfl
  | some hdr => exact if_pos (h.resolve_left (by simp))

theorem checked_of_long (h : ¬ Null hdr body bodyLen)
    (hlong : (16 + bodyLen : UInt32).toNat > cf.maxMsgSize) :
    checked cf hdr body bodyLen send = .ret eMsgSize := by
  cases hdr with
  | none => exact absurd (.inl rfl) h
  | some hdr => exact (if_neg fun hb => h (.inr hb)).trans (if_pos hlong)

theorem checked_of_short (send : (ℕ → UInt8) → (ℕ → UInt8) → Call ℤ) (h : ¬ Null hdr body bodyLen)
    (hshort : ¬ (16 + bodyLen : UInt32).toNat > cf.maxMsgSize) :
    ∃ hdr' body', checked cf hdr body bodyLen send = send hdr' body' := by
  cases hdr with
  | none => exact absurd (.inl rfl) h
  | some hdr => exact ⟨_, _, (if_neg fun hb => h (.inr hb)).trans (if_neg hshort)⟩

/-- The sum wraps around for the sixteen longest bodies. -/
theorem toNat_totalLen (bodyLen : UInt32) :
    (16 + bodyLen : UInt32).toNat = (msgHeaderLen + bodyLen.toNat) % 4294967296 := by
  rw [UInt32.toNat_add]
  rfl

/-- The condition under which the size check is right about the message. -/
def Checkable (cf : Conf) (hdr body : Option (ℕ → UInt8)) (bodyLen : UInt32) : Prop :=
  Null hdr body bodyLen ∨ msgHeaderLen + bodyLen.toNat < 4294967296 ∨
    cf.maxMsgSize + 4294967296 < msgHeaderLen + bodyLen.toNat

theorem bounded_checked (h : Checkable cf hdr body bodyLen)
    (hsend : ∀ hdr' body', msgHeaderLen + bodyLen.toNat ≤ cf.maxMsgSize →
      Bounded cf hdr body bodyLen (send hdr' body')) :
    Bounded cf hdr body bodyLen (checked cf hdr body bodyLen send) := by
  have hlt := bodyLen.toNat_lt
  have htotal := toNat_totalLen bodyLen
  by_cases hnull : Null hdr body bodyLen
  · rw [checked_of_null hnull]
    exact bounded_ret fun _ => .inl ⟨hnull, rfl⟩
  by_cases hlong : (16 + bodyLen : UInt32).toNat > cf.maxMsgSize
  · rw [checked_of_long hnull hlong]
    exact bounded_ret fun _ => .inr ⟨hnull, rfl⟩
  · obtain ⟨hdr', body', he⟩ := checked_of_short send hnull hlong
    rw [he]
    refine hsend hdr' body' ?_
    rcases h with h | h | h
    · exact absurd h hnull
    · unfold msgHeaderLen at *
      omega
    · unfold msgHeaderLen at *
      omega

end Check

/-! ### Both calls -/

theorem bounded_enqueueLocal {hdr body : Option (ℕ → UInt8)} {bodyLen : UInt32}
    (h : Checkable cf hdr body bodyLen) :
    Bounded cf hdr body bodyLen (enqueueLocal cf hdr body bodyLen) := by
  refine bounded_checked h fun hdr' body' hfits => bounded_of_touches hfits fun t q hb => ?_
  refine inside_of_parts (fun b k => b = some k) (obeys_plain _) obeys_localRound ?_
    (obeys_sendLocal hfits) hb
  rintro _ k i t rfl hround
  exact takes_of_localRound hround

theorem bounded_enqueueRemote {n : ℕ} {hdr body : Option (ℕ → UInt8)} {bodyLen : UInt32}
    (h : Checkable cf hdr body bodyLen) :
    Bounded cf hdr body bodyLen (enqueueRemote cf n hdr body bodyLen) := by
  refine bounded_checked h fun hdr' body' hfits => bounded_of_touches hfits fun t q hb => ?_
  have hb : Begun (((plain (load tailAt)).bind fun tail => .ret (0, tail)).bind fun st =>
      (loop (reserveRemoteRound cf n) st).bind (sendRemote cf n hdr' body' bodyLen)) t q := hb
  refine inside_of_parts (fun b k => b = .ok k) ?_ obeys_remoteRound ?_
    (obeys_sendRemote hfits) hb
  · exact (obeys_plain _).bind fun _ => trivial
  · rintro _ k i t rfl hround
    exact takes_of_remoteRound hround

/-- An empty ring whose memory is all zero. -/
def Flat.init (cf : Conf) : Flat := ⟨Mem.init cf, fun _ => 0⟩

/-- On an empty ring the call gets the ticket `0`. -/
theorem traced_localRound (hcapacity : cf.capacity < 4294967296) :
    ∃ t, Traced (reserveLocalRound cf 0) t (.inr (some 0)) ∧ ∃ m ∈ t, Takes m 0 := by
  have hroom : ¬ u64 (0 + cf.capacity) ≤ 0 := by
    have hpos := capacity_pos cf
    rw [u64, Nat.mod_eq_of_lt (by omega)]
    omega
  have hlook : Traced (plain (hasRoom cf .step localCachedHeadAt 0))
      [⟨.step, Flat.init cf, Flat.init cf⟩] true := by
    refine .act (c := 0) rfl ?_
    show Traced (within memAt Access.step (if u64 (0 + cf.capacity) ≤ 0 then _ else _)) [] true
    rw [if_neg hroom]
    exact .ret true
  have hcas : Traced (plain (casWeak tailAt 0 (0 + 1)))
      [⟨.step, Flat.init cf, memAt.set (tailAt.set 1 (Mem.init cf)) (Flat.init cf)⟩] (true, 0) :=
    .act (c := 0) rfl (.ret _)
  have htake : ∃ t, Traced (take cf .step localCachedHeadAt 0) t (some (true, 0)) :=
    ⟨_, hlook.bind (hcas.bind (.ret _))⟩
  obtain ⟨t, htake⟩ := htake
  have hround : Traced (reserveLocalRound cf 0) (t ++ []) (.inr (some 0)) := htake.bind (.ret _)
  exact ⟨_, hround, takes_of_localRound hround⟩

/-- A message that passes the checks is written for ticket `0`. -/
theorem begun_send (hdr body : Option (ℕ → UInt8)) (bodyLen : UInt32)
    (hcapacity : cf.capacity < 4294967296) (hnull : ¬ Null hdr body bodyLen)
    (hcheck : ¬ (16 + bodyLen : UInt32).toNat > cf.maxMsgSize) : ∃ t hdr' body',
    (∃ m ∈ t, Takes m 0) ∧ ∀ t' q, Begun (sendLocal cf hdr' body' bodyLen (some 0)) t' q →
      Begun (enqueueLocal cf hdr body bodyLen) (t ++ t') q := by
  obtain ⟨hdr', body', he⟩ := checked_of_short
    (fun hdr body => (plain (load tailAt)).bind fun tail =>
      (loop (reserveLocalRound cf) tail).bind (sendLocal cf hdr body bodyLen)) hnull hcheck
  have he : enqueueLocal cf hdr body bodyLen = _ := he
  obtain ⟨t, hround, m, hm, htake⟩ := traced_localRound hcapacity
  refine ⟨⟨.step, Flat.init cf, Flat.init cf⟩ :: t, hdr', body', ⟨m, by simp [hm], htake⟩, ?_⟩
  intro t' q hrest
  rw [he]
  have hload : Traced (plain (load tailAt)) [⟨.step, Flat.init cf, Flat.init cf⟩] 0 :=
    .act (c := 0) rfl (.ret 0)
  exact hload.begun ((traced_loop_iff.mpr (.last hround)).begun hrest)

/-- Both enqueues keep to their slot iff the sum of the size check does not wrap around, or does not
    wrap around to something that passes the check. -/
theorem enqueue_bounded_iff (cf : Conf) (hcapacity : cf.capacity < 4294967296) (n : ℕ)
    (hdr body : Option (ℕ → UInt8)) (bodyLen : UInt32) :
    Bounded cf hdr body bodyLen (enqueueLocal cf hdr body bodyLen) ∧
        Bounded cf hdr body bodyLen (enqueueRemote cf n hdr body bodyLen) ↔
      Null hdr body bodyLen ∨ msgHeaderLen + bodyLen.toNat < 4294967296 ∨
        cf.maxMsgSize + 4294967296 < msgHeaderLen + bodyLen.toNat := by
  constructor
  · rintro ⟨hlocal, -⟩
    by_contra hnot
    rw [not_or, not_or, Nat.not_lt, Nat.not_lt] at hnot
    obtain ⟨hnull, hwrap, hshort⟩ := hnot
    have hcheck : ¬ (16 + bodyLen : UInt32).toNat > cf.maxMsgSize := by
      have hlt := bodyLen.toNat_lt
      rw [toNat_totalLen]
      unfold msgHeaderLen at *
      omega
    obtain ⟨t, hdr', body', ⟨m, hm, htake⟩, hbegun⟩ := begun_send hdr body bodyLen hcapacity hnull hcheck
    have hfits := hlocal.accepts _ _ (hbegun [] _ (.refl _)) m (by simp [hm])
      (by rw [htake.1, htake.2]; simp)
    have hmax := cf.maxMsgSize_lt
    omega
  · intro h
    exact ⟨bounded_enqueueLocal h, bounded_enqueueRemote h⟩

theorem enqueue_bounded_small :
    Bounded smallConf (some fun _ => 0) (some fun _ => 0) 4
        (enqueueLocal smallConf (some fun _ => 0) (some fun _ => 0) 4) ∧
      Bounded smallConf (some fun _ => 0) (some fun _ => 0) 4
        (enqueueRemote smallConf 3 (some fun _ => 0) (some fun _ => 0) 4) :=
  (enqueue_bounded_iff smallConf (by decide) 3 _ _ 4).mpr (.inr (.inl (by decide)))

/-- A copy ends, whatever the memory. -/
theorem traced_memcpy (s : Flat) (k dst : ℕ) (src : ℕ → UInt8) (i count : ℕ) :
    ∃ t, Traced (memcpy k dst src i count) t () := by
  induction count generalizing i with
  | zero => exact ⟨[], .ret ()⟩
  | succ count ih =>
    obtain ⟨t, ht⟩ := ih (i + 1)
    exact ⟨_, .act (s := s) (c := 0) rfl ht⟩

/-- A copy reaches every byte of its range. -/
theorem begun_memcpy (s : Flat) (k dst : ℕ) (src : ℕ → UInt8) (count : ℕ) {i j : ℕ}
    (hj : j < count) : ∃ t q, Begun (memcpy k dst src i count) t q ∧
      ∃ m ∈ t, m.label = .store k (dst + (i + j)) 1 := by
  induction j generalizing i count with
  | zero =>
    obtain ⟨count, rfl⟩ := Nat.exists_eq_succ_of_ne_zero (by omega : count ≠ 0)
    exact ⟨_, _, .act (s := s) (c := 0) rfl (.refl _), _, List.mem_singleton_self _, rfl⟩
  | succ j ih =>
    obtain ⟨count, rfl⟩ := Nat.exists_eq_succ_of_ne_zero (by omega : count ≠ 0)
    obtain ⟨t, q, hb, m, hm, he⟩ := ih count (i := i + 1) (by omega)
    refine ⟨_, q, .act (s := s) (c := 0) rfl hb, m, List.mem_cons_of_mem _ hm, he.trans ?_⟩
    rw [show i + 1 + j = i + (j + 1) by omega]

/-- A body of `2^32 - 16` bytes passes the check as a message of no bytes at all; its fortieth byte
    is already in the next slot. -/
theorem enqueue_overflows : ∃ t q, ∃ m ∈ t,
    Begun (enqueueLocal smallConf (some fun _ => 0) (some fun _ => 0) 4294967280) t q ∧
      m.label = .store 0 (smallConf.entryAddr 0 + smallConf.stride) 1 ∧
      smallConf.entryAddr 0 + smallConf.stride = smallConf.entryAddr 1 := by
  obtain ⟨t, hdr, body, -, hbegun⟩ := begun_send (some fun _ => 0) (some fun _ => 0)
    4294967280 (show smallConf.capacity < 4294967296 by decide) (by simp [Null]) (by decide)
  obtain ⟨t₁, h₁⟩ := traced_memcpy (.init smallConf) 0 (smallConf.entryAddr 0 + entryHeaderSize)
    hdr 0 msgHeaderLen
  obtain ⟨t₂, q, h₂, m, hm, he⟩ := begun_memcpy (.init smallConf) 0
    (smallConf.entryAddr 0 + entryHeaderSize + msgHeaderLen) body 4294967280
    (i := 0) (j := 40) (by norm_num)
  have hwrite : ∃ q, Begun (writeEntry smallConf hdr body 4294967280 0) (t₁ ++ t₂) q := by
    unfold writeEntry
    rw [if_pos (by decide)]
    exact ⟨_, h₁.begun (h₂.bind _)⟩
  obtain ⟨q, hq⟩ := hwrite
  exact ⟨_, _, m, by simp [hm], hbegun _ _ (hq.bind _), he, rfl⟩

/-! ### The same calls

On a message that fits, the calls over addresses do what the calls over slots do. -/

theorem lawful_memAt : Place.Lawful memAt := ⟨fun _ _ => rfl, fun _ _ _ => rfl, fun _ => rfl⟩

theorem total_plain {α : Type} {Q : α → Mem → Prop} {p : Ring.Call α} {s : Mem} {f : Flat}
    (h : Total (· = 0) Q p s) (hs : f.mem = s) :
    Total (· = 0) (fun a f' => Q a f'.mem ∧ f'.bytes = f.bytes) (plain p) f := by
  refine ((On.within p).total lawful_memAt h f hs).mono ?_
  rintro a _ ⟨s, hs, rfl⟩
  exact ⟨hs, rfl⟩

theorem total_tail {f : Flat} :
    Total (· = 0) (fun v f' => v = f.mem.ring.tail ∧ f' = f) (plain (load tailAt)) f :=
  .act ⟨0, rfl, rfl⟩ fun _ _ _ _ hf => by
    cases hf
    exact .ret ⟨rfl, rfl⟩

/-- Bytes `i`, `i + 1`, … of a buffer. -/
def span (src : ℕ → UInt8) : ℕ → ℕ → List UInt8
  | _, 0 => []
  | i, count + 1 => src i :: span src (i + 1) count

/-- A buffer that holds the bytes of a list. -/
def buffer (bs : List UInt8) (i : ℕ) : UInt8 := bs.getD i 0

theorem span_buffer (bs cs : List UInt8) : span (buffer (bs ++ cs)) bs.length cs.length = cs := by
  induction cs generalizing bs with
  | nil => rfl
  | cons c cs ih =>
    have h := ih (bs ++ [c])
    rw [List.append_assoc, List.length_append] at h
    show buffer (bs ++ c :: cs) bs.length :: _ = _
    rw [show List.cons c cs = [c] ++ cs from rfl]
    congr 1
    simp [buffer]

theorem total_memcpy (k dst : ℕ) (src : ℕ → UInt8) (i count : ℕ) (f : Flat) :
    Total (· = 0) (fun _ f' => f' = ⟨f.mem, putBytes f.bytes (span src i count) (dst + i)⟩)
      (memcpy k dst src i count) f := by
  induction count generalizing i f with
  | zero => exact .ret rfl
  | succ count ih =>
    refine .bind (total_store rfl ?_)
    exact ih (i + 1) ((byteAt (dst + i)).set (src i) f)

theorem total_writeEntry (m : Message) (k : ℕ) (f : Flat) :
    Total (· = 0) (fun _ f' => f' = ⟨f.mem, putBytes (putBytes f.bytes m.bytes
        (cf.entryAddr k + entryHeaderSize)) (leBytes (k + 1) 8) (cf.entryAddr k)⟩)
      (writeEntry cf (buffer m.header.bytes) (buffer m.body) m.header.bodyLength k) f := by
  have hlen : m.header.bytes.length = msgHeaderLen := by
    simp [Header.bytes, leBytes, msgHeaderLen]
  have hheader : span (buffer m.header.bytes) 0 msgHeaderLen = m.header.bytes := by
    rw [← hlen]
    exact span_buffer [] m.header.bytes
  have hbody : span (buffer m.body) 0 m.header.bodyLength.toNat = m.body := by
    rw [← m.length_body]
    exact span_buffer [] m.body
  unfold writeEntry
  split
  · refine .bind ((total_memcpy _ _ _ _ _ _).mono ?_)
    rintro _ _ rfl
    refine .bind ((total_memcpy _ _ _ _ _ _).mono ?_)
    rintro _ _ rfl
    refine total_store rfl ?_
    rw [hheader, hbody, Message.bytes, putBytes_append, hlen]
    rfl
  · rename_i hzero
    have hnil : m.body = [] := by
      have hzero : m.header.bodyLength = 0 := by simpa using hzero
      rw [← List.length_eq_zero_iff, m.length_body, hzero]
      rfl
    refine .bind ((total_memcpy _ _ _ _ _ _).mono ?_)
    rintro _ _ rfl
    refine total_store rfl ?_
    rw [hheader, Message.bytes, hnil, List.append_nil]
    rfl

/-- The bytes after an undisturbed enqueue of `m`. -/
def landed (cf : Conf) (m : Message) (f : Flat) : ℕ → UInt8 :=
  if f.mem.ring.tail - f.mem.ring.head = cf.capacity then f.bytes
  else putBytes (putBytes f.bytes m.bytes (cf.entryAddr f.mem.ring.tail + entryHeaderSize))
    (leBytes (f.mem.ring.tail + 1) 8) (cf.entryAddr f.mem.ring.tail)

/-- The call returned what the call over slots returns, and left the same counters. -/
def SameOutcome (cf : Conf) (m : Message) (f : Flat) (r : ℤ) (f' : Flat) : Prop :=
  r = (outcome cf m f.mem.ring).code ∧ f'.mem.ring.head = (outcome cf m f.mem.ring).head ∧
    f'.mem.ring.tail = (outcome cf m f.mem.ring).tail ∧ f'.bytes = landed cf m f

/-- The checks let a message that fits through. -/
theorem checked_of_fits {m : Message} (hsize : m.Fits cf)
    {send : (ℕ → UInt8) → (ℕ → UInt8) → Call ℤ} :
    checked cf (some (buffer m.header.bytes)) (some (buffer m.body)) m.header.bodyLength send =
      send (buffer m.header.bytes) (buffer m.body) := by
  have hlong : ¬ (16 + m.header.bodyLength : UInt32).toNat > cf.maxMsgSize := by
    rw [toNat_totalLen, ← m.length_body]
    exact fits hsize
  exact (if_neg (by simp)).trans (if_neg hlong)

/-- Writing the entry and asking flow control, with the ticket in hand. -/
theorem total_send {m : Message} {f f₁ : Flat} {s : Mem} {flow : Ring.Call ℤ}
    (hnot : f.mem.ring.tail - f.mem.ring.head ≠ cf.capacity) (hbytes : f₁.bytes = f.bytes)
    (hkept : Kept f.mem s) (hf₁ : f₁.mem = tailAt.set (f.mem.ring.tail + 1) s)
    (hflow : Total (· = 0) (fun r s' => r = flowCode (f.mem.ring.tail + 1 - f₁.mem.ring.head)
      f₁.mem.ring.congestionThreshold ∧ Kept f₁.mem s') flow f₁.mem) :
    Total (· = 0) (SameOutcome cf m f) (do
      writeEntry cf (buffer m.header.bytes) (buffer m.body) m.header.bodyLength f.mem.ring.tail
      plain flow) f₁ := by
  have hhead : f₁.mem.ring.head = f.mem.ring.head := by
    rw [hf₁]
    exact hkept.head
  have hthreshold : f₁.mem.ring.congestionThreshold = f.mem.ring.congestionThreshold := by
    rw [hf₁]
    exact hkept.threshold
  have htail : f₁.mem.ring.tail = f.mem.ring.tail + 1 := by
    rw [hf₁]
    rfl
  refine .bind ((total_writeEntry m _ f₁).mono ?_)
  intro _ f₂ hf₂
  have hmem : f₂.mem = f₁.mem := by rw [hf₂]
  refine (total_plain hflow hmem).mono ?_
  rintro r f' ⟨⟨hr, hkept'⟩, hbytes'⟩
  rw [SameOutcome, outcome, if_neg hnot, landed, if_neg hnot]
  refine ⟨?_, hkept'.head.trans hhead, hkept'.tail.trans htail, ?_⟩
  · rw [hr, hhead, hthreshold]
  · rw [hbytes', hf₂, hbytes]

section Same

variable {m : Message} {f : Flat} {p : Place Mem ℕ} (hle : f.mem.ring.head ≤ f.mem.ring.tail)
  (hroom : f.mem.ring.tail ≤ f.mem.ring.head + cf.capacity)
  (hfit : f.mem.ring.head + cf.capacity < 18446744073709551616) (hsize : m.Fits cf)

include hle hroom hfit

theorem total_take {e : Label} (hp : Caches p) (hlag : p.get f.mem ≤ f.mem.ring.head) :
    Total (· = 0) (fun taken f' => f'.bytes = f.bytes ∧ p.get f'.mem ≤ f.mem.ring.head ∧
      if f.mem.ring.tail - f.mem.ring.head = cf.capacity then taken = none ∧ Kept f.mem f'.mem
      else taken = some (true, f.mem.ring.tail) ∧
        ∃ s, Kept f.mem s ∧ f'.mem = tailAt.set (f.mem.ring.tail + 1) s)
      (take cf e p f.mem.ring.tail) f := by
  refine .bind ((total_plain (total_hasRoom hp hlag hle hroom hfit) rfl).mono ?_)
  rintro room f₁ ⟨⟨rfl, hkept, hlag₁⟩, hbytes⟩
  by_cases hfull : f.mem.ring.tail - f.mem.ring.head = cf.capacity
  · rw [if_pos (by simp [hfull])]
    refine .ret ⟨hbytes, hlag₁, ?_⟩
    rw [if_pos hfull]
    exact ⟨rfl, hkept⟩
  · rw [if_neg (by simp [hfull])]
    have hcas : Total (· = 0) (fun taken s => taken = (true, f.mem.ring.tail) ∧
        s = tailAt.set (f.mem.ring.tail + 1) f₁.mem)
        (casWeak tailAt f.mem.ring.tail (f.mem.ring.tail + 1) : Ring.Call _) f₁.mem :=
      total_casWeak (fun _ => ⟨rfl, rfl⟩) fun hne => absurd hkept.tail hne
    refine .bind ((total_plain hcas rfl).mono ?_)
    rintro _ f₂ ⟨⟨rfl, hf₂⟩, hbytes₂⟩
    refine .ret ⟨hbytes₂.trans hbytes, ?_, ?_⟩
    · rw [hf₂, hp.tail]
      exact hlag₁
    · rw [if_neg hfull]
      exact ⟨rfl, f₁.mem, hkept, hf₂⟩

include hsize

theorem enqueueLocal_refines (hlag : f.mem.ring.localProducerCachedHead ≤ f.mem.ring.head) :
    Total (· = 0) (SameOutcome cf m f)
      (enqueueLocal cf (some (buffer m.header.bytes)) (some (buffer m.body)) m.header.bodyLength)
      f := by
  rw [enqueueLocal, checked_of_fits hsize]
  refine .bind (total_tail.mono ?_)
  rintro _ _ ⟨rfl, rfl⟩
  refine .bind (total_loop (.bind ((total_take hle hroom hfit caches_local hlag).mono ?_)))
  rintro taken f₁ ⟨hbytes, hlag₁, htaken⟩
  split_ifs at htaken with hfull
  · obtain ⟨rfl, hkept⟩ := htaken
    refine .ret (.ret ?_)
    rw [SameOutcome, outcome, if_pos hfull, landed, if_pos hfull]
    exact ⟨rfl, hkept.head, hkept.tail, hbytes⟩
  · obtain ⟨rfl, s, hkept, hf₁⟩ := htaken
    have hhead : f₁.mem.ring.head = _ := (congrArg (·.ring.head) hf₁).trans hkept.head
    refine .ret (total_send hfull hbytes hkept hf₁ (total_flowResultAfterEnqueue caches_local ?_ ?_ ?_))
    · exact hlag₁.trans hhead.ge
    · omega
    · omega

theorem enqueueRemote_refines {n : ℕ} (hlag : (f.mem.caches n).shadowHead ≤ f.mem.ring.head)
    (hthreshold : (f.mem.caches n).cachedThreshold = f.mem.ring.congestionThreshold)
    (hversion : (f.mem.caches n).cachedThresholdVersion = f.mem.ring.congestionThresholdVersion) :
    Total (· = 0) (SameOutcome cf m f)
      (enqueueRemote cf n (some (buffer m.header.bytes)) (some (buffer m.body)) m.header.bodyLength)
      f := by
  rw [enqueueRemote, checked_of_fits hsize]
  refine .bind (total_tail.mono ?_)
  rintro _ _ ⟨rfl, rfl⟩
  refine .bind (total_loop ?_)
  rw [reserveRemoteRound, if_neg (Nat.not_lt_zero _)]
  refine .bind ((total_take hle hroom hfit (caches_remote n) hlag).mono ?_)
  rintro taken f₁ ⟨hbytes, hlag₁, htaken⟩
  split_ifs at htaken with hfull
  · obtain ⟨rfl, hkept⟩ := htaken
    refine .ret (.ret ?_)
    rw [SameOutcome, outcome, if_pos hfull, landed, if_pos hfull]
    exact ⟨rfl, hkept.head, hkept.tail, hbytes⟩
  · obtain ⟨rfl, s, hkept, hf₁⟩ := htaken
    have hhead : f₁.mem.ring.head = _ := (congrArg (·.ring.head) hf₁).trans hkept.head
    refine .ret (total_send hfull hbytes hkept hf₁
      (total_flowResultAfterEnqueueCached ?_ ?_ ?_ ?_ ?_))
    · exact hlag₁.trans hhead.ge
    · omega
    · omega
    · rw [hf₁]
      exact (hkept.cachedThreshold n).trans (hthreshold.trans hkept.threshold.symm)
    · rw [hf₁]
      exact (hkept.cachedVersion n).trans (hversion.trans hkept.version.symm)

end Same

theorem enqueueLocal_refines_halfFull : ∃ (m : Message) (f : Flat), f.mem = halfFull ∧
    Total (· = 0) (SameOutcome smallConf m f) (enqueueLocal smallConf
      (some (buffer m.header.bytes)) (some (buffer m.body)) m.header.bodyLength) f :=
  ⟨shortMessage 0 7, ⟨halfFull, fun _ => 0⟩, rfl, enqueueLocal_refines (by decide) (by decide)
    (by decide) (by decide) (by decide)⟩

theorem enqueueRemote_refines_halfFull : ∃ (m : Message) (f : Flat), f.mem = halfFull ∧
    Total (· = 0) (SameOutcome smallConf m f) (enqueueRemote smallConf 3
      (some (buffer m.header.bytes)) (some (buffer m.body)) m.header.bodyLength) f :=
  ⟨shortMessage 0 7, ⟨halfFull, fun _ => 0⟩, rfl, enqueueRemote_refines (by decide) (by decide)
    (by decide) (by decide) (by decide) (by decide) (by decide)⟩

end Raw

end Ring

end UbsAtomic
