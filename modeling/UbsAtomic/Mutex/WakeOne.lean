import UbsAtomic.Conc.Trace
import UbsAtomic.Lock.QueuePart
import UbsAtomic.Mutex.MutexLock

/-! Waking one waiter of a mutex.

        head                                  w             tail
        [ TIMEOUT | WAITING ✗ | TIMEOUT | WAITING ✗ | WAITING ✓ | WAITING … ]
          skipped   popped      skipped   popped      NOTIFIED    as it was

    `wake_one_waiter` goes through the queue from its head. A dead entry is stepped over, a waiting
    one is marked and notified; if the notification fails it is popped and the next one has its turn. -/

namespace UbsAtomic

open Conc Conc.Prog

namespace Mutex

open WaitQueue

/-! ### One round -/

/-- The queue has the tickets from `a` up to `b`; those of `live` are WAITING, none is NOTIFIED. -/
structure Tidy {π : Type} (cap : ℕ) (r : RingQueue π) (a b : ℕ) (live : Finset ℕ) : Prop where
  rep : Rep cap r a b live
  waiting : ∀ n ∈ live, (r.slots (n % cap)).seq = .waiting

section Round

variable {π : Type} {q : QueueRef Mem Label π} {notify : ℕ → Call Bool} {s s' : Mem} {a b sanity : ℕ}
  {live : Finset ℕ} {x : ℕ ⊕ Unit}

/-- `notify` among the runs in which slot `i` answers `ok i`. -/
def answering (ok : ℕ → Bool) (notify : ℕ → Call Bool) (i : ℕ) : Call Bool := do
  let found ← notify i
  assuming .step (found = ok i)
  return found

theorem run_answering {ok : ℕ → Bool} {i : ℕ} {found : Bool} :
    Run (answering ok notify i) s found s' ↔ found = ok i ∧ Run (notify i) s found s' := by
  constructor
  · intro hr
    obtain ⟨found', s₁, hnotify, hr⟩ := hr.of_bind
    obtain ⟨hok, hr⟩ := hr.assuming
    cases hr
    exact ⟨hok, hnotify⟩
  · rintro ⟨hok, hnotify⟩
    exact hnotify.bind (.act (c := 0) (if_pos hok) (.ret _ _))

/-- The queue with ticket `n` at its head and NOTIFIED. -/
def fronted (cap : ℕ) (r : RingQueue π) (n : ℕ) : RingQueue π :=
  notifyHead cap { r with head := u32 n }

/-- What a round finds once the head is clean: nobody, or the first live entry. -/
theorem Tidy.cleaned {r r' : RingQueue π} {cap : ℕ} (h : Tidy cap r a b live)
    (hc : Cleaned cap r a b live r') :
    live = ∅ ∧ r' = { r with head := u32 b } ∧ Rep cap r' b b ∅ ∨
      ∃ n ∈ live, (∀ m ∈ live, n ≤ m) ∧ r' = { r with head := u32 n } ∧ Rep cap r' n b live ∧
        (r'.slots (n % cap)).seq = .waiting := by
  obtain ⟨n, -, hrep, hr', rfl | hn⟩ := hc
  · left
    have hnone : live = ∅ := by
      refine Finset.eq_empty_of_forall_notMem fun m hm => ?_
      have hw := hrep.window m hm
      omega
    subst hnone
    exact ⟨rfl, hr', hrep⟩
  · right
    refine ⟨n, hn, fun m hm => (hrep.window m hm).1, hr', hrep, ?_⟩
    rw [hr']
    exact h.waiting n hn

/-- Nobody is left: `outqueue` finds nothing in front of an empty window. -/
theorem over_of_empty {r : RingQueue π} {cap : ℕ} (hcap : Sized cap) (h : Rep cap r b b ∅) :
    (r.slots (r.head % cap)).seq = .empty ∨ (r.slots (r.head % cap)).seq = .timeout := by
  rw [h.index_head hcap]
  exact h.outside _ fun n hn hn' => absurd hn (Nat.not_le.mpr hn')

theorem popped_u32 (hcap : Sized q.cap) (n : ℕ) (r : RingQueue π) :
    popped q.cap q.reset (u32 n) r = popped q.cap q.reset n r := by
  rw [popped, popped, mod_u32 hcap.dvd]

/-- A round finds nobody, or notifies the first live entry and pops it if that fails. It might as well
    have been given the answer. -/
theorem run_wakeRound (hq : q.ref.Lawful) (hcap : Sized q.cap) (h : Tidy q.cap (q.ref.get s) a b live)
    (hpos : sanity ≠ 0) (hkeep : ∀ i, Quiet (fun s s' => q.ref.get s' = q.ref.get s) (fun _ => True)
      (notify i)) (hr : Run (wakeRound q notify sanity) s x s') :
    live = ∅ ∧ x = .inr () ∧ Rep q.cap (q.ref.get s') b b ∅ ∧
        q.ref.get s' = { q.ref.get s with head := u32 b } ∧
        (∀ ok, Run (wakeRound q (answering ok notify) sanity) s x s') ∨
      ∃ n ∈ live, (∀ m ∈ live, n ≤ m) ∧ Rep q.cap { q.ref.get s with head := u32 n } n b live ∧
        ∃ found s₁ s₂, Run (notify (n % q.cap)) s₁ found s₂ ∧
        (∀ ok, ok (n % q.cap) = found → Run (wakeRound q (answering ok notify) sanity) s x s') ∧
        (found = true ∧ x = .inr () ∧ q.ref.get s' = fronted q.cap (q.ref.get s) n ∨
          found = false ∧ x = .inl (sanity - 1) ∧
            q.ref.get s' = popped q.cap q.reset n (fronted q.cap (q.ref.get s) n)) := by
  rw [wakeRound, if_neg hpos] at hr
  obtain ⟨⟨⟩, s₁, hadv, hr⟩ := hr.of_bind
  obtain ⟨r', hclean, rfl⟩ := QueueRef.run_advanceDeadHead hq hcap h.rep hadv
  have hget : q.ref.get (q.ref.set r' s) = r' := hq.get_set _ _
  have hticket : q.head.get (q.ref.set r' s) = r'.head := congrArg RingQueue.head hget
  obtain ⟨i, s₂, hout, hr⟩ := hr.load.of_bind
  rcases h.cleaned hclean with ⟨hnone, hr', hrep⟩ | ⟨n, hn, hfirst, hr', hrep, hw⟩
  · left
    have hover := over_of_empty hcap hrep
    rw [← hget] at hover
    obtain ⟨rfl, rfl⟩ := (QueueCalls.total_outqueue_none trivial hover).sound hout
    have hsame : ∀ ok, Run (wakeRound q (answering ok notify) sanity) s x s' := by
      intro ok
      rw [wakeRound, if_neg hpos]
      exact hadv.bind (.act (c := 0) rfl (hout.bind hr))
    have hcount : q.count.get (q.ref.set r' s) = 0 := (congrArg RingQueue.count hget).trans hrep.count
    have hr := hr.load
    rw [hcount, if_pos rfl] at hr
    cases hr
    exact ⟨hnone, rfl, hget.symm ▸ hrep, hget.trans hr', hsame⟩
  · right
    have hidx : r'.head % q.cap = n % q.cap := hrep.index_head hcap
    rw [← hidx, ← hget] at hw
    obtain ⟨rfl, rfl⟩ := (QueueCalls.total_outqueue trivial hcap.pos hw).sound hout
    obtain ⟨found, s₃, hnotify, hr⟩ := hr.of_bind
    have hkept : q.ref.get s₃ = fronted q.cap (q.ref.get s) n := by
      rw [hnotify.kept (q := q.ref.get) (hkeep _)]
      rw [hq.get_set, hget, hr']
      rfl
    have hsame : ∀ ok, ok (n % q.cap) = found →
        Run (wakeRound q (answering ok notify) sanity) s x s' := by
      intro ok hok
      rw [wakeRound, if_neg hpos]
      rw [← hidx, ← hget] at hok
      exact hadv.bind (.act (c := 0) rfl (hout.bind ((run_answering.mpr ⟨hok.symm, hnotify⟩).bind hr)))
    rw [hget, hidx] at hnotify
    refine ⟨n, hn, hfirst, hr' ▸ hrep, found, _, s₃, hnotify, hsame, ?_⟩
    cases found with
    | true =>
      left
      rw [if_pos rfl] at hr
      cases hr
      exact ⟨rfl, rfl, hkept⟩
    | false =>
      right
      rw [if_neg (by decide)] at hr
      obtain ⟨⟨⟩, s₄, hpop, hr⟩ := hr.of_bind
      cases hr
      have hpop := QueueRef.run_popHead hq hpop
      refine ⟨rfl, rfl, ?_⟩
      rw [hpop, hq.get_set, hticket, hkept, hrep.head, popped_u32 hcap]

/-- A round comes back if the notification does. -/
theorem total_wakeRound (hq : q.ref.Lawful) (hcap : Sized q.cap)
    (h : Tidy q.cap (q.ref.get s) a b live) (sanity : ℕ)
    (hnotify : ∀ i s, Total (· = 0) (fun _ _ => True) (notify i) s) :
    Total (· = 0) (fun _ _ => True) (wakeRound q notify sanity) s := by
  rw [wakeRound]
  split
  · exact .ret trivial
  refine .bind ((QueueRef.total_advanceDeadHead hq hcap h.rep).of_run fun _ s₁ hadv => ?_)
  obtain ⟨r', hclean, rfl⟩ := QueueRef.run_advanceDeadHead hq hcap h.rep hadv
  have hget : q.ref.get (q.ref.set r' s) = r' := hq.get_set _ _
  refine .bind (total_load rfl ?_)
  rcases h.cleaned hclean with ⟨-, -, hrep⟩ | ⟨n, -, -, -, hrep, hw⟩
  · have hover := over_of_empty hcap hrep
    rw [← hget] at hover
    refine .bind ((QueueCalls.total_outqueue_none (C := (· = 0)) rfl hover).mono ?_)
    rintro i s₂ ⟨rfl, rfl⟩
    exact .bind (total_load rfl (.ret trivial))
  · rw [← hrep.index_head hcap, ← hget] at hw
    refine .bind ((QueueCalls.total_outqueue (C := (· = 0)) rfl hcap.pos hw).mono ?_)
    rintro i s₂ ⟨rfl, rfl⟩
    refine .bind ((hnotify _ _).mono fun found s₃ _ => ?_)
    cases found with
    | true => exact .ret trivial
    | false => exact .bind ((QueueRef.total_popHead hq _).mono fun _ _ _ => .ret trivial)

end Round

/-! ### The scan -/

section Scan

variable {π : Type} {cap a₀ a b n : ℕ} {ok : ℕ → Bool} {r₀ r : RingQueue π} {live₀ live : Finset ℕ}
  {e : π}

/-- The scan of the queue `r₀` has come to ticket `a`: what it passed was dead or refused the
    notification, what is ahead is as it was. -/
structure Scanned (cap : ℕ) (ok : ℕ → Bool) (r₀ : RingQueue π) (a₀ b : ℕ) (live₀ : Finset ℕ)
    (r : RingQueue π) (a : ℕ) (live : Finset ℕ) : Prop where
  tidy : Tidy cap r a b live
  le : a₀ ≤ a
  room : b ≤ a₀ + cap
  window : ∀ n ∈ live₀, a₀ ≤ n ∧ n < b
  ahead : ∀ n, n ∈ live ↔ n ∈ live₀ ∧ a ≤ n
  refused : ∀ n ∈ live₀, n < a → ok (n % cap) = false
  emptied : ∀ n ∈ live₀, n < a → (r.slots (n % cap)).seq = .empty
  kept : ∀ n, a ≤ n → n < b → r.slots (n % cap) = r₀.slots (n % cap)
  count : r.count + (live₀.filter (· < a)).card = r₀.count

theorem Tidy.scanned (ok : ℕ → Bool) (h : Tidy cap r₀ a b live₀) :
    Scanned cap ok r₀ a b live₀ r₀ a live₀ where
  tidy := h
  le := Nat.le_refl a
  room := h.rep.room
  window := h.rep.window
  ahead := fun n => ⟨fun hn => ⟨hn, (h.rep.window n hn).1⟩, fun hn => hn.1⟩
  refused := fun n hn hlt => absurd (h.rep.window n hn).1 (Nat.not_le.mpr hlt)
  emptied := fun n hn hlt => absurd (h.rep.window n hn).1 (Nat.not_le.mpr hlt)
  kept := fun _ _ _ => rfl
  count := by
    rw [Finset.filter_false_of_mem fun n hn => Nat.not_lt.mpr (h.rep.window n hn).1]
    rfl

/-- The tickets of one scan have slots of their own. -/
theorem Scanned.slot_ne (h : Scanned cap ok r₀ a₀ b live₀ r a live) {m : ℕ} (hm : a₀ ≤ m) (hm' : m < b)
    (hn : a₀ ≤ n) (hn' : n < b) (hne : m ≠ n) : m % cap ≠ n % cap := by
  have hroom := h.room
  exact fun he => hne (eq_of_mod_eq hm (by omega) hn (by omega) he)

theorem fronted_slots (hcap : Sized cap) : (fronted cap r n).slots =
    Function.update r.slots (n % cap) ⟨.notified, (r.slots (n % cap)).payload⟩ := by
  rw [fronted, notifyHead, mod_u32 hcap.dvd]

theorem popped_fronted_slots (hcap : Sized cap) : (popped cap e n (fronted cap r n)).slots =
    Function.update r.slots (n % cap) ⟨.empty, e⟩ := by
  rw [popped, fronted_slots hcap, Function.update_idem]

/-- The live entries in front of the next ticket are one more. -/
theorem card_passed (hn : n ∈ live₀) (hahead : ∀ m ∈ live₀, a ≤ m → n ≤ m) (han : a ≤ n) :
    (live₀.filter (· < n + 1)).card = (live₀.filter (· < a)).card + 1 := by
  have hinsert : live₀.filter (· < n + 1) = insert n (live₀.filter (· < a)) := by
    ext m
    simp only [Finset.mem_filter, Finset.mem_insert]
    constructor
    · rintro ⟨hm, hlt⟩
      by_cases hma : m < a
      · exact .inr ⟨hm, hma⟩
      · have hle := hahead m hm (by omega)
        exact .inl (by omega)
    · rintro (rfl | ⟨hm, hlt⟩)
      · exact ⟨hn, Nat.lt_succ_self m⟩
      · exact ⟨hm, by omega⟩
  rw [hinsert, Finset.card_insert_of_notMem]
  intro hmem
  have hlt := (Finset.mem_filter.mp hmem).2
  omega

/-- An entry that refuses is popped, and the scan goes on behind it. -/
theorem Scanned.next (h : Scanned cap ok r₀ a₀ b live₀ r a live) (hcap : Sized cap) (hn : n ∈ live)
    (hfirst : ∀ m ∈ live, n ≤ m) (hrep : Rep cap { r with head := u32 n } n b live)
    (hok : ok (n % cap) = false) :
    Scanned cap ok r₀ a₀ b live₀ (popped cap e n (fronted cap r n)) (n + 1) (live.erase n) := by
  obtain ⟨hn₀, han⟩ := (h.ahead n).mp hn
  have hwin := h.window n hn₀
  have hle := h.le
  have hslots := popped_fronted_slots (r := r) (n := n) (e := e) hcap
  have hother : ∀ m, a₀ ≤ m → m < b → m ≠ n →
      (popped cap e n (fronted cap r n)).slots (m % cap) = r.slots (m % cap) := by
    intro m hm hm' hne
    rw [hslots, Function.update_of_ne (h.slot_ne hm hm' hwin.1 hwin.2 hne)]
  have hpop : Rep cap (popped cap e n (fronted cap r n)) (n + 1) b (live.erase n) := by
    refine hrep.pop hwin.2 rfl hn hslots (u32_succ n) rfl ?_
    rw [← h.tidy.rep.count]
    rfl
  have hcount := h.count
  have hpos : 0 < live.card := Finset.card_pos.mpr ⟨n, hn⟩
  refine ⟨⟨hpop, fun m hm => ?_⟩, by omega, h.room, h.window, fun m => ?_, fun m hm hlt => ?_,
    fun m hm hlt => ?_, fun m hm hm' => ?_, ?_⟩
  · obtain ⟨hne, hm⟩ := Finset.mem_erase.mp hm
    have hm₀ := h.window m ((h.ahead m).mp hm).1
    rw [hother m hm₀.1 hm₀.2 hne]
    exact h.tidy.waiting m hm
  · rw [Finset.mem_erase, h.ahead]
    constructor
    · rintro ⟨hne, hm₀, ham⟩
      have hnm := hfirst m ((h.ahead m).mpr ⟨hm₀, ham⟩)
      exact ⟨hm₀, by omega⟩
    · rintro ⟨hm₀, hnm⟩
      exact ⟨by omega, hm₀, by omega⟩
  · rcases Nat.lt_or_ge m a with hma | hma
    · exact h.refused m hm hma
    · have hnm := hfirst m ((h.ahead m).mpr ⟨hm, hma⟩)
      obtain rfl : m = n := by omega
      exact hok
  · rcases eq_or_ne m n with rfl | hne
    · rw [hslots, Function.update_self]
    · have hma : m < a := by
        by_contra hma
        have hnm := hfirst m ((h.ahead m).mpr ⟨hm, by omega⟩)
        omega
      have hm₀ := h.window m hm
      rw [hother m hm₀.1 hm₀.2 hne]
      exact h.emptied m hm hma
  · rw [hother m (by omega) hm' (by omega)]
    exact h.kept m (by omega) hm'
  · rw [card_passed hn₀ (fun m hm ham => hfirst m ((h.ahead m).mpr ⟨hm, ham⟩)) han]
    have hc : r.count = live.card := h.tidy.rep.count
    show r.count - 1 + _ = _
    omega

/-- Ticket `w` has been notified: it is at the head, those in front of it are gone, those behind it as
    they were. -/
structure HandedTo (cap : ℕ) (r₀ : RingQueue π) (b : ℕ) (live₀ : Finset ℕ) (w : ℕ) (r : RingQueue π) :
    Prop where
  head : r.head = u32 w
  notified : r.slots (w % cap) = ⟨.notified, (r₀.slots (w % cap)).payload⟩
  only : ∀ i, (r.slots i).seq = .notified → i = w % cap
  removed : ∀ n ∈ live₀, n < w → (r.slots (n % cap)).seq = .empty
  count : r.count + (live₀.filter (· < w)).card = r₀.count
  after : ∀ n, w < n → n < b → r.slots (n % cap) = r₀.slots (n % cap)

/-- Nobody is in the queue any more. -/
structure Deserted (r : RingQueue π) : Prop where
  empty : r.head = r.tail
  live : ∀ i, (r.slots i).seq ≠ .waiting ∧ (r.slots i).seq ≠ .notified
  count : r.count = 0

/-- The first waiting entry whose slot answers is handed the lock; if none does, nobody is left. -/
def WakesFirst (cap : ℕ) (ok : ℕ → Bool) (r₀ : RingQueue π) (b : ℕ) (live₀ : Finset ℕ)
    (r : RingQueue π) : Prop :=
  (∀ w ∈ live₀, ok (w % cap) = true → (∀ n ∈ live₀, n < w → ok (n % cap) = false) →
      HandedTo cap r₀ b live₀ w r) ∧
    ((∀ n ∈ live₀, ok (n % cap) = false) → Deserted r)

/-- A slot is that of a ticket of the window, or outside. -/
theorem Tidy.seq_cases (h : Tidy cap r a b live) (i : ℕ) :
    (∃ n ∈ live, n % cap = i) ∨ (r.slots i).seq = .timeout ∨ (r.slots i).seq = .empty := by
  by_cases hin : ∃ n, a ≤ n ∧ n < b ∧ n % cap = i
  · obtain ⟨n, ha, hb, rfl⟩ := hin
    by_cases hn : n ∈ live
    · exact .inl ⟨n, hn, rfl⟩
    · exact .inr (.inl (h.rep.dead n ha hb hn))
  · have hout := h.rep.outside i fun n ha hb he => hin ⟨n, ha, hb, he⟩
    exact .inr hout.symm

/-- The scan ends at an entry that answers. -/
theorem Scanned.handedTo (h : Scanned cap ok r₀ a₀ b live₀ r a live) (hcap : Sized cap) (hn : n ∈ live)
    (hfirst : ∀ m ∈ live, n ≤ m) : HandedTo cap r₀ b live₀ n (fronted cap r n) := by
  obtain ⟨hn₀, han⟩ := (h.ahead n).mp hn
  have hwin := h.window n hn₀
  have hle := h.le
  have hslots := fronted_slots (r := r) (n := n) hcap
  have hpassed : ∀ m ∈ live₀, m < n → m < a := by
    intro m hm hlt
    by_contra hma
    have hnm := hfirst m ((h.ahead m).mpr ⟨hm, by omega⟩)
    omega
  refine ⟨rfl, ?_, fun i hi => ?_, fun m hm hlt => ?_, ?_, fun m hm hm' => ?_⟩
  · rw [hslots, Function.update_self, h.kept n han hwin.2]
  · by_contra hne
    rw [hslots, Function.update_of_ne hne] at hi
    rcases h.tidy.seq_cases i with ⟨m, hm, rfl⟩ | ht | he
    · have hw := h.tidy.waiting m hm
      rw [hi] at hw
      cases hw
    · rw [hi] at ht
      cases ht
    · rw [hi] at he
      cases he
  · have hm₀ := h.window m hm
    rw [hslots, Function.update_of_ne (h.slot_ne hm₀.1 hm₀.2 hwin.1 hwin.2 (by omega))]
    exact h.emptied m hm (hpassed m hm hlt)
  · have hsame : live₀.filter (· < n) = live₀.filter (· < a) := by
      refine Finset.filter_congr fun m hm => ⟨hpassed m hm, fun hma => ?_⟩
      omega
    rw [hsame]
    exact h.count
  · rw [hslots, Function.update_of_ne (h.slot_ne (by omega) hm' hwin.1 hwin.2 (by omega))]
    exact h.kept m (by omega) hm'

theorem Scanned.wakesFirst_some (h : Scanned cap ok r₀ a₀ b live₀ r a live) (hcap : Sized cap)
    (hn : n ∈ live) (hfirst : ∀ m ∈ live, n ≤ m) (hok : ok (n % cap) = true) :
    WakesFirst cap ok r₀ b live₀ (fronted cap r n) := by
  obtain ⟨hn₀, han⟩ := (h.ahead n).mp hn
  constructor
  · intro w hw hokw hbefore
    -- `w` is the first that answers, and so is `n`
    have hwn : w = n := by
      rcases Nat.lt_trichotomy w n with hlt | heq | hlt
      · have hwa : w < a := by
          by_contra hwa
          have hnw := hfirst w ((h.ahead w).mpr ⟨hw, by omega⟩)
          omega
        rw [h.refused w hw hwa] at hokw
        cases hokw
      · exact heq
      · rw [hbefore n hn₀ hlt] at hok
        cases hok
    subst hwn
    exact h.handedTo hcap hn hfirst
  · intro hnone
    rw [hnone n hn₀] at hok
    cases hok

theorem Scanned.wakesFirst_none (h : Scanned cap ok r₀ a₀ b live₀ r a live) (hnone : live = ∅)
    {r' : RingQueue π} (hrep : Rep cap r' b b ∅) : WakesFirst cap ok r₀ b live₀ r' := by
  constructor
  · intro w hw hokw _
    have hwa : w < a := by
      by_contra hwa
      have hmem := (h.ahead w).mpr ⟨hw, by omega⟩
      rw [hnone] at hmem
      cases hmem
    rw [h.refused w hw hwa] at hokw
    cases hokw
  · intro _
    refine ⟨hrep.head.trans hrep.tail.symm, fun i => ?_, hrep.count⟩
    rcases hrep.outside i fun n hn hn' => absurd hn (Nat.not_le.mpr hn') with he | he <;> simp [he]

end Scan

section Loop

variable {π : Type} {q : QueueRef Mem Label π} {notify : ℕ → Call Bool} {s s' : Mem}
  {a b limit : ℕ} {live : Finset ℕ}

theorem quiet_answering {κ : Type} {f : Mem → κ} (ok : ℕ → Bool) {i : ℕ}
    (h : Quiet (fun s s' => f s' = f s) (fun _ => True) (notify i)) :
    Quiet (fun s s' => f s' = f s) (fun _ => True) (answering ok notify i) := by
  refine h.bind fun found => .bind ⟨trivial, ?_, fun _ => trivial⟩ fun _ => trivial
  intro s c s' b hf
  dsimp only at hf
  split_ifs at hf
  cases hf
  rfl

/-- The scan of a tidy queue, with the answers given. -/
theorem run_wakeOne {ok : ℕ → Bool} (hq : q.ref.Lawful) (hcap : Sized q.cap)
    (h : Tidy q.cap (q.ref.get s) a b live) (hlimit : live.card < limit)
    (hkeep : ∀ i, Quiet (fun s s' => q.ref.get s' = q.ref.get s) (fun _ => True) (notify i))
    (hr : Run (wakeOne q (answering ok notify) limit) s () s') :
    WakesFirst q.cap ok (q.ref.get s) b live (q.ref.get s') := by
  rw [wakeOne] at hr
  have hkeep' := fun i => quiet_answering ok (hkeep i)
  refine Run.loop_inv (fun sanity s₁ => ∃ a' live', live'.card < sanity ∧
      Scanned q.cap ok (q.ref.get s) a b live (q.ref.get s₁) a' live')
    (Q := fun _ s' => WakesFirst q.cap ok (q.ref.get s) b live (q.ref.get s')) ?_ ?_
    ⟨a, live, hlimit, h.scanned ok⟩ hr
  · rintro sanity j s₁ s₂ ⟨a', live', hcard, hscan⟩ hround
    rcases run_wakeRound hq hcap hscan.tidy (by omega) hkeep' hround with
      ⟨-, hx, -⟩ | ⟨n, hn, hfirst, hrep, found, s₃, s₄, hnotify, -, ⟨-, hx, -⟩ | ⟨hfound, hx, hget⟩⟩
    · cases hx
    · cases hx
    · cases hx
      have hok : ok (n % q.cap) = false := (run_answering.mp hnotify).1.symm.trans hfound
      have hpos := Finset.card_pos.mpr ⟨n, hn⟩
      refine ⟨n + 1, live'.erase n, ?_, ?_⟩
      · rw [Finset.card_erase_of_mem hn]
        omega
      · rw [hget]
        exact hscan.next hcap hn hfirst hrep hok
  · rintro sanity ⟨⟩ s₁ s₂ ⟨a', live', hcard, hscan⟩ hround
    rcases run_wakeRound hq hcap hscan.tidy (by omega) hkeep' hround with
      ⟨hnone, -, hrep, -⟩ | ⟨n, hn, hfirst, -, found, s₃, s₄, hnotify, -, ⟨hfound, -, hget⟩ | ⟨-, hx, -⟩⟩
    · exact hscan.wakesFirst_none hnone hrep
    · rw [hget]
      exact hscan.wakesFirst_some hcap hn hfirst ((run_answering.mp hnotify).1.symm.trans hfound)
    · cases hx

/-- It comes to an end: every round but the last takes an entry out. -/
theorem total_wakeOne (hq : q.ref.Lawful) (hcap : Sized q.cap)
    (h : Tidy q.cap (q.ref.get s) a b live) (hlimit : live.card < limit)
    (hkeep : ∀ i, Quiet (fun s s' => q.ref.get s' = q.ref.get s) (fun _ => True) (notify i))
    (hnotify : ∀ i s, Total (· = 0) (fun _ _ => True) (notify i) s) :
    Total (· = 0) (fun _ _ => True) (wakeOne q notify limit) s := by
  rw [wakeOne]
  induction limit generalizing s a live with
  | zero => omega
  | succ limit ih =>
    refine .iter (.bind ((total_wakeRound hq hcap h _ hnotify).of_run fun x s₁ hround => ?_))
    rcases run_wakeRound hq hcap h (by omega) hkeep hround with
      ⟨-, rfl, -⟩ | ⟨n, hn, hfirst, hrep, found, s₃, s₄, -, -, ⟨-, rfl, -⟩ | ⟨-, rfl, hget⟩⟩
    · exact .ret trivial
    · exact .ret trivial
    · have hpos := Finset.card_pos.mpr ⟨n, hn⟩
      have hnext := (h.scanned fun _ => false).next (e := q.reset) hcap hn hfirst hrep rfl
      rw [← hget] at hnext
      refine ih hnext.tidy ?_
      rw [Finset.card_erase_of_mem hn]
      omega

/-- Every run is one with answers given: no slot is asked twice. -/
theorem wakeOne_answering (hq : q.ref.Lawful) (hcap : Sized q.cap)
    (h : Tidy q.cap (q.ref.get s) a b live) (hlimit : live.card < limit)
    (hkeep : ∀ i, Quiet (fun s s' => q.ref.get s' = q.ref.get s) (fun _ => True) (notify i))
    (hr : Run (wakeOne q notify limit) s () s') :
    ∃ ok : ℕ → Bool, ∀ ok' : ℕ → Bool, (∀ n ∈ live, ok' (n % q.cap) = ok (n % q.cap)) →
      Run (wakeOne q (answering ok' notify) limit) s () s' := by
  simp only [wakeOne] at hr ⊢
  induction limit generalizing s a live with
  | zero => omega
  | succ limit ih =>
    obtain ⟨t, hp⟩ := hr.path
    rcases hp.of_loop with hround | ⟨j, t₁, t₂, s₁, rfl, hround, hrest⟩
    · rcases run_wakeRound hq hcap h (by omega) hkeep hround.run with
        ⟨-, -, -, -, hsame⟩ | ⟨n, hn, -, -, found, -, -, -, hsame, -⟩
      · exact ⟨fun _ => true, fun ok' _ => .iter ((hsame ok').bind (.ret _ _))⟩
      · exact ⟨fun _ => found, fun ok' hok' => .iter ((hsame ok' (hok' n hn)).bind (.ret _ _))⟩
    · rcases run_wakeRound hq hcap h (by omega) hkeep hround.run with
        ⟨-, hx, -⟩ | ⟨n, hn, hfirst, hrep, found, -, -, -, hsame, ⟨-, hx, -⟩ | ⟨hfound, hx, hget⟩⟩
      · cases hx
      · cases hx
      · cases hx
        have hpos := Finset.card_pos.mpr ⟨n, hn⟩
        have hnext := (h.scanned fun _ => false).next (e := q.reset) hcap hn hfirst hrep rfl
        rw [← hget] at hnext
        obtain ⟨ok, hok⟩ := ih hnext.tidy (by rw [Finset.card_erase_of_mem hn]; omega) hrest.run
        refine ⟨Function.update ok (n % q.cap) false, fun ok' hok' => .iter ?_⟩
        refine (hsame ok' ?_).bind (hok ok' fun m hm => ?_)
        · rw [hok' n hn, Function.update_self, hfound]
        · obtain ⟨hne, hm⟩ := Finset.mem_erase.mp hm
          have hwm := h.rep.window m hm
          have hwn := h.rep.window n hn
          rw [hok' m hm, Function.update_of_ne (h.rep.slot_ne hwm.1 hwm.2 hwn.1 hwn.2 hne)]

end Loop

/-! ### The shared queue -/

theorem lawful_shared : sharedQueue.ref.Lawful :=
  ⟨fun _ _ => rfl, fun _ _ _ => rfl, fun _ => rfl⟩

theorem sized_shared : Sized sharedQueue.cap := sized_two_pow (k := 4) (by decide)

/-- Sending leaves the queue alone. -/
theorem quiet_mutexSendWithRetry (m : Message) (maxAttempts : ℕ) :
    Quiet (fun s s' : Mem => s'.shm = s.shm) (fun _ => True) (mutexSendWithRetry m maxAttempts) := by
  refine .bind (.read trivial fun _ => rfl) fun up => .ite trivial (.loop fun i => .ite trivial ?_)
  refine .bind ⟨trivial, ?_, fun _ => trivial⟩ fun _ => trivial
  intro s c s' b hf
  cases hf
  rfl

theorem quiet_notifyWaiter (l : Location) (i : ℕ) :
    Quiet (fun s s' : Mem => s'.shm = s.shm) (fun _ => True) (notifyWaiter l i) := by
  refine .bind (.read trivial fun _ => rfl) fun w => .ite ?_ ?_
  · exact .bind (.read trivial fun _ => rfl) fun w => .rmw trivial fun _ _ => rfl
  · refine .bind (.read trivial fun _ => rfl) fun up => .ite trivial ?_
    exact .bind (.read trivial fun _ => rfl) fun w => quiet_mutexSendWithRetry _ _

theorem total_mutexSendWithRetry (m : Message) (maxAttempts : ℕ) (s : Mem) :
    Total (· = 0) (fun _ _ => True) (mutexSendWithRetry m maxAttempts) s := by
  refine .bind (total_load rfl ?_)
  split
  · exact .ret trivial
  suffices hfrom : ∀ d i, i + d = maxAttempts → ∀ s, Total (· = 0) (fun _ _ => True)
      (loop (fun i => do
        if i ≥ maxAttempts then
          return .inr false
        let ok ← send m
        return if ok then .inr true else .inl (i + 1)) i) s from hfrom maxAttempts 0 (by omega) s
  intro d
  induction d with
  | zero =>
    intro i hi s
    refine total_loop ?_
    rw [if_pos (by omega)]
    exact .ret trivial
  | succ d ih =>
    intro i hi s
    refine .iter (.bind ?_)
    rw [if_neg (by omega)]
    refine .act ⟨0, rfl, rfl⟩ fun c s' b _ hf => ?_
    cases hb : b with
    | true => exact .ret (.ret trivial)
    | false => exact .ret (ih (i + 1) (by omega) s')

theorem total_notifyWaiter (l : Location) (i : ℕ) (s : Mem) :
    Total (· = 0) (fun _ _ => True) (notifyWaiter l i) s := by
  refine .bind (total_load rfl ?_)
  split
  · exact .bind (total_load rfl (total_rmw rfl trivial))
  · refine .bind (total_load rfl ?_)
    split
    · exact .ret trivial
    · exact .bind (total_load rfl (total_mutexSendWithRetry _ _ _))

/-- `MutexLock::wake_one_waiter` with the outcome of every notification given. -/
def wakeOneWaiterAs (ok : ℕ → Bool) (l : Location) : Call Unit :=
  wakeOne sharedQueue (answering ok (notifyWaiter l)) mutexWakeScanLimit

/-- `wake_one_waiter` ends, follows some assignment of answers, and under every assignment wakes the
    first waiter that can be reached. -/
theorem wakeOneWaiter_wakes_first {s : Mem} {a b : ℕ} {live : Finset ℕ} (l : Location)
    (h : Rep ubMaxNodes s.shm.queue a b live)
    (hw : ∀ n ∈ live, (s.shm.queue.slots (n % ubMaxNodes)).seq = .waiting) :
    Total (· = 0) (fun _ _ => True) (wakeOneWaiter l) s ∧
      (∀ s', Run (wakeOneWaiter l) s () s' → ∃ ok, Run (wakeOneWaiterAs ok l) s () s') ∧
      ∀ ok s', Run (wakeOneWaiterAs ok l) s () s' →
        WakesFirst ubMaxNodes ok s.shm.queue b live s'.shm.queue := by
  have htidy : Tidy sharedQueue.cap (sharedQueue.ref.get s) a b live := ⟨h, hw⟩
  have hlimit : live.card < mutexWakeScanLimit := by
    have hle := h.card_le
    have hroom := h.room
    have hcap : ubMaxNodes = 16 := rfl
    have hlim : mutexWakeScanLimit = 32 := rfl
    omega
  have hkeep : ∀ i, Quiet (fun s s' => sharedQueue.ref.get s' = sharedQueue.ref.get s)
      (fun _ => True) (notifyWaiter l i) := by
    intro i
    exact (quiet_notifyWaiter l i).mono (fun _ _ hs => congrArg UbMutexLock.queue hs) fun _ h => h
  refine ⟨total_wakeOne lawful_shared sized_shared htidy hlimit hkeep (total_notifyWaiter l),
    fun s' hr => ?_, fun ok s' hr => run_wakeOne lawful_shared sized_shared htidy hlimit hkeep hr⟩
  obtain ⟨ok, hok⟩ := wakeOne_answering lawful_shared sized_shared htidy hlimit hkeep hr
  exact ⟨ok, hok ok fun _ _ => rfl⟩

/-- Thread 2 of node 1 waits, which no message reaches, and thread 3 of node 0 behind it. -/
def unreachableFirst : Mem :=
  { Mem.init fun _ => .refused with
    shm := ⟨lockInvalidOwner, ⟨0, 2, 2, fun i =>
      if i = 0 then ⟨.waiting, ⟨.x, ⟨2, 1⟩⟩⟩ else if i = 1 then ⟨.waiting, ⟨.x, ⟨3, 0⟩⟩⟩
      else ⟨.empty, .reset⟩⟩, mutexReady⟩
    waiters := fun n t => if n = 0 ∧ t = 3 then some false else none }

theorem rep_unreachableFirst : Rep ubMaxNodes unreachableFirst.shm.queue 0 2 {0, 1} where
  head := rfl
  tail := rfl
  le := by decide
  room := by decide
  window := by simp
  waits := by
    intro k hk
    rcases Finset.mem_insert.mp hk with rfl | hk
    · exact .inl rfl
    · rw [Finset.mem_singleton.mp hk]
      exact .inl rfl
  dead := by
    intro k _ hk hnot
    simp only [Finset.mem_insert, Finset.mem_singleton] at hnot
    omega
  outside := by
    intro i hi
    have h0 : i ≠ 0 := (hi 0 (Nat.le_refl 0) (by decide)).symm
    have h1 : i ≠ 1 := (hi 1 (by decide) (by decide)).symm
    left
    show (if i = 0 then _ else if i = 1 then _ else _ : Slot UbWaiter).seq = _
    rw [if_neg h0, if_neg h1]
  count := rfl

/-- The thread that cannot be reached is taken out, and the next one is handed the lock. -/
theorem wakeOneWaiter_wakes_second :
    ∃ s', Run (wakeOneWaiterAs (fun i => i = 1) ⟨1, 0⟩) unreachableFirst () s' ∧
      HandedTo ubMaxNodes unreachableFirst.shm.queue 2 {0, 1} 1 s'.shm.queue := by
  have hwaiting : ∀ n ∈ ({0, 1} : Finset ℕ),
      (unreachableFirst.shm.queue.slots (n % ubMaxNodes)).seq = .waiting := by decide
  obtain ⟨-, -, hfirst⟩ := wakeOneWaiter_wakes_first ⟨1, 0⟩ rep_unreachableFirst hwaiting
  have hexec : ((wakeOneWaiterAs (fun i => i = 1) ⟨1, 0⟩).exec 200 unreachableFirst).isSome = true := by
    decide +kernel
  obtain ⟨⟨⟨⟩, s'⟩, hr⟩ := Option.isSome_iff_exists.mp hexec
  have hr := run_of_exec hr
  exact ⟨s', hr, (hfirst _ s' hr).1 1 (by decide) rfl (by decide)⟩

end Mutex

end UbsAtomic
