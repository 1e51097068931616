import UbsAtomic.Conc.Trace
import UbsAtomic.Mutex.MutexLock

/-! What a lock call of the mutex leaves in the wait queues.

        enqueue k ──▶ counted ──▶ hand-off ──┬──▶ taken: pop_head(k)          slot EMPTY, counted off
                                             ├──▶ deadline: clean_timeout(k)  slot TIMEOUT, counted off
                                             └──▶ deadline seen by the loop test of lock_mutex_local:
                                                  TIMEOUT is returned, the entry stays NOTIFIED

    The statements are about the own steps of a call, whatever other threads do between them. An entry
    is cleaned up if the call empties its slot and counts it off, or finds that others have. -/

namespace UbsAtomic

open Conc Conc.Prog

/-! ### Cleaning up an entry -/

namespace QueueRef

variable {σ ε π : Type} (q : QueueRef σ ε π)

/-- The slot of ticket `k` has a WAITING or NOTIFIED entry. -/
def LiveAt (k : ℕ) (s : σ) : Prop :=
  (q.seq (q.index k)).get s = .waiting ∨ (q.seq (q.index k)).get s = .notified

/-- Others have taken the entry out: a step finds it dead that the steps before had left alive. -/
def TakenOut (k : ℕ) (t : List (OwnStep σ ε)) : Prop :=
  ∃ t₁ m t₂, t = t₁ ++ m :: t₂ ∧ ¬ q.LiveAt k m.before ∧ ∀ m' ∈ t₁, q.LiveAt k m'.after

/-- The step takes one off `waiting_count`, or finds nobody counted. -/
def Discounts (m : OwnStep σ ε) : Prop :=
  q.count.get m.before = 0 ∨ q.count.get m.after + 1 = q.count.get m.before

/-- The entry of ticket `k` is dead and no longer counted: by the hand of others, or because one of
    the steps removes it and one counts it off. -/
def CleanedUp (k : ℕ) (t : List (OwnStep σ ε)) : Prop :=
  q.TakenOut k t ∨
    (∃ m ∈ t, q.LiveAt k m.before ∧ ¬ q.LiveAt k m.after) ∧ ∃ m ∈ t, q.Discounts m

variable {q} {k : ℕ} {t u : List (OwnStep σ ε)}

theorem takenOut_of_dead {m : OwnStep σ ε} (h : ¬ q.LiveAt k m.before) : q.TakenOut k (m :: t) :=
  ⟨[], m, t, rfl, h, by simp⟩

theorem TakenOut.cons {m : OwnStep σ ε} (hm : q.LiveAt k m.after) (h : q.TakenOut k t) :
    q.TakenOut k (m :: t) := by
  obtain ⟨t₁, m', t₂, rfl, hdead, hlive⟩ := h
  exact ⟨m :: t₁, m', t₂, rfl, hdead, List.forall_mem_cons.mpr ⟨hm, hlive⟩⟩

/-- More steps afterwards. -/
theorem CleanedUp.append (h : q.CleanedUp k t) : q.CleanedUp k (t ++ u) := by
  rcases h with ⟨t₁, m, t₂, rfl, hdead, hlive⟩ | ⟨⟨m, hm, hdies⟩, m', hm', hcount⟩
  · exact .inl ⟨t₁, m, t₂ ++ u, by simp, hdead, hlive⟩
  · exact .inr ⟨⟨m, List.mem_append_left u hm, hdies⟩, m', List.mem_append_left u hm', hcount⟩

/-- Steps before that leave a live entry alive. -/
theorem CleanedUp.prepend (hu : ∀ m ∈ u, q.LiveAt k m.before → q.LiveAt k m.after)
    (h : q.CleanedUp k t) : q.CleanedUp k (u ++ t) := by
  induction u with
  | nil => exact h
  | cons m u ih =>
    obtain ⟨hm, hu⟩ := List.forall_mem_cons.mp hu
    by_cases hlive : q.LiveAt k m.before
    · rcases ih hu with hout | ⟨⟨m₁, hm₁, hdies⟩, m₂, hm₂, hcount⟩
      · exact .inl (hout.cons (hm hlive))
      · exact .inr ⟨⟨m₁, List.mem_cons_of_mem m hm₁, hdies⟩, m₂, List.mem_cons_of_mem m hm₂, hcount⟩
    · exact .inl (takenOut_of_dead hlive)

/-- A round of the compare-and-swap loop counts off, or finds another value. -/
theorem traced_decRound (hq : q.ref.Lawful) {cur : ℕ} {x : ℕ ⊕ Unit} (hz : cur ≠ 0)
    (h : Traced (do
      let (ok, cur) ← casWeakAt (q.lab .step) q.count cur (cur - 1)
      return if ok then .inr () else .inl cur) t x) :
    ∃ m ∈ t, q.Discounts m ∨ x = .inl (q.count.get m.before) := by
  obtain ⟨s, t', ⟨hget, rfl, -⟩ | ⟨rfl, h₁⟩⟩ := h.casWeak
  · refine ⟨_, List.mem_cons_self, .inl (.inr ?_)⟩
    have hafter : q.count.get (q.count.set (cur - 1) s) = cur - 1 :=
      congrArg RingQueue.count (hq.get_set _ _)
    rw [hafter, hget]
    omega
  · obtain ⟨rfl, rfl⟩ := h₁.of_ret
    exact ⟨_, List.mem_cons_self, .inr rfl⟩

/-- `ring_queue_try_dec_count` counts off. -/
theorem traced_tryDecCount (hq : q.ref.Lawful) {b : Unit} (h : Traced q.tryDecCount t b) :
    ∃ m ∈ t, q.Discounts m := by
  obtain ⟨s, t, rfl, hloop⟩ := h.load
  by_cases hz : q.count.get s = 0
  · exact ⟨_, List.mem_cons_self, .inl hz⟩
  suffices hlater : ∃ m ∈ t, q.Discounts m by
    obtain ⟨m, hm, hcount⟩ := hlater
    exact ⟨m, List.mem_cons_of_mem _ hm, hcount⟩
  rw [traced_loop_iff] at hloop
  clear h
  generalize q.count.get s = cur at hloop hz
  induction hloop with
  | last h =>
    rw [if_neg hz] at h
    obtain ⟨m, hm, hcount | hx⟩ := traced_decRound hq hz h
    · exact ⟨m, hm, hcount⟩
    · cases hx
  | more h _ ih =>
    rw [if_neg hz] at h
    obtain ⟨m, hm, hcount | hx⟩ := traced_decRound hq hz h
    · exact ⟨m, List.mem_append_left _ hm, hcount⟩
    · cases hx
      by_cases hz' : q.count.get m.before = 0
      · exact ⟨m, List.mem_append_left _ hm, .inl hz'⟩
      · obtain ⟨m', hm', hcount⟩ := ih hz'
        exact ⟨m', List.mem_append_right _ hm', hcount⟩

variable (q) in
/-- A step that ends the life of an entry is followed by one that counts it off. -/
def CountsOff : List (OwnStep σ ε) → Prop
  | [] => True
  | m :: t => (∀ k, q.LiveAt k m.before → ¬ q.LiveAt k m.after → ∃ m' ∈ t, q.Discounts m') ∧
      CountsOff t

theorem CountsOff.append (ht : q.CountsOff t) (hu : q.CountsOff u) : q.CountsOff (t ++ u) := by
  induction t with
  | nil => exact hu
  | cons m t ih =>
    refine ⟨fun k hb ha => ?_, ih ht.2⟩
    obtain ⟨m', hm', hd⟩ := ht.1 k hb ha
    exact ⟨m', List.mem_append_left u hm', hd⟩

variable (q) in
/-- No step ends the life of an entry. -/
abbrev Gentle {α : Type} (p : Prog σ ε α) : Prop :=
  Quiet (fun s s' => ∀ k, q.LiveAt k s → q.LiveAt k s') (fun _ => True) p

theorem countsOff_of_gentle {α : Type} {p : Prog σ ε α} {a : α} (h : Traced p t a)
    (hp : q.Gentle p) : q.CountsOff t := by
  have hm := hp.moves h
  clear h
  induction t with
  | nil => trivial
  | cons m t ih =>
    obtain ⟨hm, ht⟩ := List.forall_mem_cons.mp hm
    exact ⟨fun k hb ha => absurd (hm k hb) ha, ih ht⟩

theorem gentle_load {α : Type} {e : ε} {p : Place σ α} : q.Gentle (loadAt e p) :=
  .read trivial fun _ _ h => h

/-- Writing a counter ends no life. -/
theorem live_set (hq : q.ref.Lawful) {p : Place (RingQueue π) ℕ}
    (hp : ∀ v r i, ((p.set v r).slots i).seq = (r.slots i).seq) (v : ℕ) (s : σ) (k : ℕ)
    (h : q.LiveAt k s) : q.LiveAt k ((q.ref.comp p).set v s) := by
  have hseq : (q.seq (q.index k)).get ((q.ref.comp p).set v s) = (q.seq (q.index k)).get s := by
    simp [QueueRef.seq, Place.comp, hq.get_set, hp]
  rwa [LiveAt, hseq]

theorem gentle_head (hq : q.ref.Lawful) {e : ε} {x v : ℕ} : q.Gentle (casWeakAt e q.head x v) :=
  .casWeak trivial (fun _ _ h => h) fun s => live_set hq (fun _ _ _ => rfl) v s

theorem gentle_notify (hq : q.ref.Lawful) {e : ε} {i : ℕ} :
    q.Gentle (casAt e (q.seq i) .waiting .notified) := by
  refine .cas trivial (fun _ _ h => h) fun s _ k h => ?_
  rcases eq_or_ne (q.index k) i with rfl | hne
  · exact .inr (by simp [QueueRef.seq, hq.get_set])
  · have hseq : (q.seq (q.index k)).get ((q.seq i).set .notified s) = (q.seq (q.index k)).get s := by
      simp [QueueRef.seq, Place.comp, hq.get_set, hne]
    rwa [LiveAt, hseq]

/-- Steps before a count-off, and the count-off itself. -/
theorem countsOff_tryDecCount (hq : q.ref.Lawful) {b : Unit} (h : Traced q.tryDecCount t b) :
    (∃ m ∈ t, q.Discounts m) ∧ q.CountsOff t :=
  ⟨traced_tryDecCount hq h, countsOff_of_gentle h <| .bind gentle_load fun _ => .loop fun _ =>
    .ite trivial <| .bind (.casWeak trivial (fun _ _ h => h) fun s =>
      live_set hq (fun _ _ _ => rfl) _ s) fun _ => trivial⟩

/-- `ring_queue_pop_head` cleans up. -/
theorem traced_popHead (hq : q.ref.Lawful) {b : Unit} (h : Traced (q.popHead k) t b) :
    q.CleanedUp k t ∧ q.CountsOff t := by
  obtain ⟨s, t, rfl, h₁⟩ := h.store
  obtain ⟨s₁, t, rfl, h₂⟩ := h₁.store
  obtain ⟨s₂, t, rfl, h₃⟩ := h₂.rmw
  obtain ⟨⟨m, hm, hcount⟩, hrest⟩ := countsOff_tryDecCount hq h₃
  refine ⟨?_, fun _ _ _ => ⟨m, by simp [hm], hcount⟩, fun _ _ _ => ⟨m, by simp [hm], hcount⟩,
    fun _ _ _ => ⟨m, hm, hcount⟩, hrest⟩
  by_cases hlive : q.LiveAt k s
  · refine .inr ⟨⟨_, List.mem_cons_self, hlive, ?_⟩, m, by simp [hm], hcount⟩
    have hafter : (q.seq (q.index k)).get ((q.seq (q.index k)).set .empty s) = .empty := by
      simp [QueueRef.seq, hq.get_set]
    simp [LiveAt, hafter]
  · exact .inl (takenOut_of_dead hlive)

/-- A round of `ring_queue_try_mark_timeout` cleans up a live entry, or the swap fails. -/
theorem traced_markRound (hq : q.ref.Lawful) {seq : WaitState} {x : WaitState ⊕ Bool}
    (h : Traced (do
      let (ok, seq) ← casWeakAt (q.lab (.timeoutCas k)) (q.seq (q.index k)) seq .timeout
      if ok then
        storeAt (q.lab .step) (q.payload (q.index k)) q.reset
        q.tryDecCount
        return .inr true
      else
        return .inl seq) t x) :
    q.CountsOff t ∧ ((seq = .waiting ∨ seq = .notified → q.CleanedUp k t) ∨
      ∃ e s, t = [⟨e, s, s⟩] ∧ x = .inl ((q.seq (q.index k)).get s)) := by
  obtain ⟨s, t, ⟨hget, rfl, h₁⟩ | ⟨rfl, h₁⟩⟩ := h.casWeak
  · dsimp only at h₁
    rw [if_pos rfl] at h₁
    obtain ⟨s₁, t, rfl, h₂⟩ := h₁.store
    obtain ⟨t₁, t₂, _, rfl, h₃, hret⟩ := h₂.of_bind
    obtain ⟨rfl, -⟩ := hret.of_ret
    rw [List.append_nil]
    obtain ⟨⟨m, hm, hcount⟩, hrest⟩ := countsOff_tryDecCount hq h₃
    refine ⟨⟨fun _ _ _ => ⟨m, by simp [hm], hcount⟩, fun _ _ _ => ⟨m, hm, hcount⟩, hrest⟩,
      .inl fun hseq => .inr ⟨⟨_, List.mem_cons_self, ?_, ?_⟩, m, by simp [hm], hcount⟩⟩
    · rw [LiveAt, hget]
      exact hseq
    · have hafter : (q.seq (q.index k)).get ((q.seq (q.index k)).set .timeout s) = .timeout := by
        simp [QueueRef.seq, hq.get_set]
      simp [LiveAt, hafter]
  · dsimp only at h₁
    rw [if_neg (by decide)] at h₁
    obtain ⟨rfl, rfl⟩ := h₁.of_ret
    exact ⟨⟨fun _ hb ha => absurd hb ha, trivial⟩, .inr ⟨_, s, rfl, rfl⟩⟩

/-- `ring_queue_clean_timeout` cleans up. -/
theorem traced_cleanTimeout (hq : q.ref.Lawful) {b : Unit} (h : Traced (q.cleanTimeout k) t b) :
    q.CleanedUp k t := by
  obtain ⟨t, t', x, rfl, hmark, -⟩ := h.of_bind
  refine CleanedUp.append ?_
  obtain ⟨s, t, rfl, hloop⟩ := hmark.load
  by_cases hlive : q.LiveAt k s
  swap
  · exact .inl (takenOut_of_dead hlive)
  have hseq : (q.seq (q.index k)).get s = .waiting ∨ (q.seq (q.index k)).get s = .notified := hlive
  refine CleanedUp.prepend (u := [_]) (List.forall_mem_singleton.mpr id) ?_
  rw [traced_loop_iff] at hloop
  clear h hmark hlive
  generalize (q.seq (q.index k)).get s = seq at hloop hseq
  induction hloop with
  | last h =>
    rw [if_pos (.inr hseq)] at h
    rcases (traced_markRound hq h).2 with hclean | ⟨_, _, _, hx⟩
    · exact hclean hseq
    · cases hx
  | more h _ ih =>
    rw [if_pos (.inr hseq)] at h
    rcases (traced_markRound hq h).2 with hclean | ⟨e, s, rfl, hx⟩
    · exact (hclean hseq).append
    · cases hx
      by_cases hlive : q.LiveAt k s
      · exact .prepend (List.forall_mem_singleton.mpr id) (ih hlive)
      · exact .inl (takenOut_of_dead hlive)

/-- The own steps of one operation, other than `enqueue`: it writes only to the slot of a ticket that
    it has just claimed. -/
inductive Operates (q : QueueRef σ ε π) (t : List (OwnStep σ ε)) : Prop
  | outqueue {i : Option ℕ} (h : Traced q.outqueue t i)
  | peek {x : Option Mode} (h : Traced q.peekHeadModeClean t x)
  | advance (h : Traced q.advanceDeadHead t ())
  | handoff {n : ℕ} {b : Bool} (h : Traced (q.trySelfHandoffIfHead n) t b)
  | clean {n : ℕ} (h : Traced (q.cleanTimeout n) t ())
  | pop {n : ℕ} (h : Traced (q.popHead n) t ())

/-- Whoever removes an entry also takes it off `waiting_count`: an entry that others have taken out
    has been counted off by them. -/
theorem Operates.countsOff (hq : q.ref.Lawful) (h : q.Operates t) : q.CountsOff t := by
  cases h with
  | outqueue h =>
    refine countsOff_of_gentle h (.loop fun _ => .ite trivial ?_)
    exact .bind gentle_load fun _ => .bind gentle_load fun _ => .ite trivial <|
      .ite (.bind (gentle_notify hq) fun _ => trivial) trivial
  | peek h =>
    refine countsOff_of_gentle h (.loop fun _ => .bind gentle_load fun _ => .bind gentle_load
      fun _ => .ite trivial <| .bind gentle_load fun seqv => ?_)
    cases seqv with
    | waiting => exact .bind gentle_load fun _ => trivial
    | timeout => exact .bind (gentle_head hq) fun _ => trivial
    | _ => trivial
  | advance h =>
    refine countsOff_of_gentle h (.loop fun _ => .bind gentle_load fun _ => .bind gentle_load
      fun _ => .ite trivial <| .bind gentle_load fun _ => .ite ?_ trivial)
    exact .bind (gentle_head hq) fun _ => trivial
  | handoff h =>
    refine countsOff_of_gentle h (.bind gentle_load fun _ => .bind gentle_load fun _ => ?_)
    exact .ite trivial <| .ite trivial <| .bind (gentle_notify hq) fun _ => trivial
  | pop h => exact (traced_popHead hq h).2
  | @clean n h =>
    obtain ⟨t, t', x, rfl, hmark, hret⟩ := h.of_bind
    refine CountsOff.append ?_ (countsOff_of_gentle hret trivial)
    obtain ⟨s, t, rfl, hloop⟩ := hmark.load
    refine ⟨fun k hb ha => absurd hb ha, ?_⟩
    rw [traced_loop_iff] at hloop
    clear h hmark
    generalize (q.seq (q.index n)).get s = seq at hloop
    induction hloop with
    | last h =>
      split at h
      · exact (traced_markRound hq h).1
      · exact countsOff_of_gentle h trivial
    | more h _ ih =>
      refine CountsOff.append ?_ ih
      split at h
      · exact (traced_markRound hq h).1
      · exact countsOff_of_gentle h trivial

/-! ### Entries of a call -/

variable (q) in
/-- The label is not that of an entry being counted. -/
def Uncounting (e : ε) : Prop := ∀ k, e ≠ q.lab (.counted k)

variable (q) in
/-- Every ticket that is counted in the course of `t` is cleaned up in what follows. -/
def LeavesNone : List (OwnStep σ ε) → Prop
  | [] => True
  | m :: t => (∀ k, m.label = q.lab (.counted k) → q.CleanedUp k t) ∧ LeavesNone t

theorem leavesNone_of_uncounting (h : ∀ m ∈ t, q.Uncounting m.label) : q.LeavesNone t := by
  induction t with
  | nil => trivial
  | cons m t ih =>
    obtain ⟨hm, ht⟩ := List.forall_mem_cons.mp h
    exact ⟨fun k hk => absurd hk (hm k), ih ht⟩

theorem LeavesNone.prepend (hu : ∀ m ∈ u, q.Uncounting m.label) (h : q.LeavesNone t) :
    q.LeavesNone (u ++ t) := by
  induction u with
  | nil => exact h
  | cons m u ih =>
    obtain ⟨hm, hu⟩ := List.forall_mem_cons.mp hu
    exact ⟨fun k hk => absurd hk (hm k), ih hu⟩

theorem LeavesNone.append (hu : ∀ m ∈ u, q.Uncounting m.label) (h : q.LeavesNone t) :
    q.LeavesNone (t ++ u) := by
  induction t with
  | nil => exact leavesNone_of_uncounting hu
  | cons m t ih => exact ⟨fun k hk => (h.1 k hk).append, ih h.2⟩

/-- The one entry that is counted is cleaned up. -/
theorem leavesNone_cons (hlab : Function.Injective q.lab) {m : OwnStep σ ε}
    (hm : m.label = q.lab (.counted k)) (ht : ∀ m ∈ t, q.Uncounting m.label)
    (hclean : q.CleanedUp k t) : q.LeavesNone (m :: t) := by
  refine ⟨fun k' hk' => ?_, leavesNone_of_uncounting ht⟩
  obtain rfl : k' = k := by
    have h := hlab (hk'.symm.trans hm)
    cases h
    rfl
  exact hclean

theorem quiet_tryDecCount {R : σ → σ → Prop} (hlab : Function.Injective q.lab) (hR : ∀ s, R s s)
    (hw : ∀ v s, R s (q.count.set v s)) : Quiet R q.Uncounting q.tryDecCount := by
  have hstep : q.Uncounting (q.lab .step) := fun k h => by cases hlab h
  refine .bind (.read hstep hR) fun cur => .loop fun cur => .ite trivial ?_
  exact .bind (.casWeak hstep hR fun s => hw _ s) fun _ => trivial

/-- None of the clean-up steps counts an entry. -/
theorem uncounting_popHead (hlab : Function.Injective q.lab) (n : ℕ) :
    Quiet (fun _ _ => True) q.Uncounting (q.popHead n) := by
  refine .bind (.write (fun k h => ?_) fun _ => trivial) fun _ => ?_
  · cases hlab h
  refine .bind (.write (fun k h => ?_) fun _ => trivial) fun _ => ?_
  · cases hlab h
  refine .bind (.rmw (fun k h => ?_) fun _ _ => trivial) fun _ => ?_
  · cases hlab h
  exact quiet_tryDecCount hlab (fun _ => trivial) fun _ _ => trivial

theorem uncounting_cleanTimeout (hlab : Function.Injective q.lab) (n : ℕ) :
    Quiet (fun _ _ => True) q.Uncounting (q.cleanTimeout n) := by
  have hstep : q.Uncounting (q.lab .step) := fun k h => by cases hlab h
  refine .bind (.bind (.read hstep fun _ => trivial) fun seq => .loop fun seq => .ite ?_ trivial)
    fun _ => trivial
  refine .bind (.casWeak (fun k h => ?_) (fun _ => trivial) fun _ => trivial) fun r => .ite ?_ trivial
  · cases hlab h
  refine .bind (.write hstep fun _ => trivial) fun _ => ?_
  exact .bind (quiet_tryDecCount hlab (fun _ => trivial) fun _ _ => trivial) fun _ => trivial

theorem uncounting_takeTicket (hlab : Function.Injective q.lab) :
    Quiet (fun _ _ => True) q.Uncounting q.takeTicket := by
  have hstep : q.Uncounting (q.lab .step) := fun k h => by cases hlab h
  refine .loop fun _ => .bind (.read hstep fun _ => trivial) fun h => ?_
  refine .bind (.read hstep fun _ => trivial) fun t => .ite trivial ?_
  refine .bind (.casWeak (fun k h => ?_) (fun _ => trivial) fun _ => trivial) fun _ => trivial
  cases hlab h

/-- `ring_queue_enqueue` counts the ticket it returns, in its last step. -/
theorem traced_enqueue (hlab : Function.Injective q.lab) {p : π} {r : Result × ℕ}
    (h : Traced (q.enqueue p) t r) :
    r.1 ≠ .success ∧ (∀ m ∈ t, q.Uncounting m.label) ∨
      r.1 = .success ∧ ∃ u m, t = u ++ [m] ∧ (∀ m ∈ u, q.Uncounting m.label) ∧
        m.label = q.lab (.counted r.2) := by
  obtain ⟨t₁, t₂, ticket, rfl, htake, h₁⟩ := h.of_bind
  have hquiet := (uncounting_takeTicket hlab).labels htake
  cases ticket with
  | none =>
    obtain ⟨rfl, rfl⟩ := h₁.of_ret
    rw [List.append_nil]
    exact .inl ⟨by simp, hquiet⟩
  | some k =>
    obtain ⟨s₂, t₂, rfl, h₂⟩ := h₁.load
    obtain ⟨s₃, t₃, rfl, h₃⟩ := h₂.store
    obtain ⟨s₄, t₄, rfl, h₄⟩ := h₃.store
    obtain ⟨s₅, t₅, rfl, h₅⟩ := h₄.store
    obtain ⟨s₆, t₆, rfl, h₆⟩ := h₅.rmw
    obtain ⟨rfl, rfl⟩ := h₆.of_ret
    refine .inr ⟨rfl, t₁ ++ [_, _, _, _], _, (List.append_assoc t₁ [_, _, _, _] [_]).symm, ?_, rfl⟩
    intro m hm
    rcases List.mem_append.mp hm with hm | hm
    · exact hquiet m hm
    · intro k' hk'
      fin_cases hm <;> cases hlab hk'

/-- The steps leave a live entry of ticket `k` alive, and count none. -/
abbrev Spares {α : Type} (q : QueueRef σ ε π) (k : ℕ) (p : Prog σ ε α) : Prop :=
  Quiet (fun s s' => q.LiveAt k s → q.LiveAt k s') q.Uncounting p

theorem spares_trySelfHandoffIfHead (hq : q.ref.Lawful) (hlab : Function.Injective q.lab) :
    q.Spares k (q.trySelfHandoffIfHead k) := by
  have hlabel : ∀ l : QLabel, (∀ k, l ≠ .counted k) → q.Uncounting (q.lab l) :=
    fun l hl k h => hl k (hlab h)
  refine .bind (.read (hlabel _ (by simp)) fun _ h => h) fun h => ?_
  refine .bind (.read (hlabel _ (by simp)) fun _ h => h) fun t => .ite trivial (.ite trivial ?_)
  refine .bind (.cas (hlabel _ (by simp)) (fun _ h => h) fun s _ _ => .inr ?_) fun _ => trivial
  simp [QueueRef.seq, hq.get_set]

end QueueRef

namespace Mutex

/-! ### Waiting for the hand-off -/

section Wait

variable {π : Type} {q : QueueRef Mem Label π} {k : ℕ} {t : List (OwnStep Mem Label)}

/-- A wait queue that has its labels and its place in memory to itself. -/
structure Apart (q : QueueRef Mem Label π) : Prop where
  lawful : q.ref.Lawful
  lab : Function.Injective q.lab
  step : q.Uncounting .step
  wait : ∀ l, q.Uncounting (.wait l)
  ctx : ∀ l v s, q.ref.get ((waitCtx l).set v s) = q.ref.get s

theorem Apart.spares_ctx (h : Apart q) (l : Location) (v : Option Bool) :
    q.Spares k (store (waitCtx l) v) := by
  refine .write h.step fun s hlive => ?_
  have hseq : (q.seq (q.index k)).get ((waitCtx l).set v s) = (q.seq (q.index k)).get s :=
    congrArg (fun r => (r.slots (q.index k)).seq) (h.ctx l v s)
  rwa [QueueRef.LiveAt, hseq]

theorem Apart.spares_awaitHandoff (h : Apart q) (owner : Place Mem ℕ) (l : Location) (deadline : ℤ) :
    q.Spares k (awaitHandoff q owner l deadline k) := by
  have hwait : q.Spares k (waitNotified l deadline) := by
    refine ⟨h.wait l, fun s c s' b hf => ?_, fun _ => trivial⟩
    dsimp only at hf
    split_ifs at hf <;> cases hf <;> exact id
  refine .bind (.read h.step fun _ h => h) fun holder => .bind (.ite ?_ trivial) fun _ => ?_
  · exact QueueRef.spares_trySelfHandoffIfHead h.lawful h.lab
  · exact .ite trivial hwait

/-- The call has an entry in the queue: it has counted ticket `k` once, and has not harmed it. -/
def Entered (q : QueueRef Mem Label π) (k : ℕ) (t : List (OwnStep Mem Label)) : Prop :=
  ∃ u m v, t = u ++ m :: v ∧ (∀ m ∈ u, q.Uncounting m.label) ∧ m.label = q.lab (.counted k) ∧
    (∀ m ∈ v, q.Uncounting m.label) ∧ ∀ m ∈ v, q.LiveAt k m.before → q.LiveAt k m.after

theorem Entered.prepend {w : List (OwnStep Mem Label)} (hw : ∀ m ∈ w, q.Uncounting m.label)
    (h : Entered q k t) : Entered q k (w ++ t) := by
  obtain ⟨u, m, v, rfl, hu, hrest⟩ := h
  refine ⟨w ++ u, m, v, by simp, fun m' hm' => ?_, hrest⟩
  rcases List.mem_append.mp hm' with hm' | hm'
  · exact hw m' hm'
  · exact hu m' hm'

/-- What follows cleans the entry up. -/
theorem Entered.leavesNone (h : Entered q k t) (hlab : Function.Injective q.lab)
    {w : List (OwnStep Mem Label)} (hw : ∀ m ∈ w, q.Uncounting m.label) (hclean : q.CleanedUp k w) :
    q.LeavesNone (t ++ w) := by
  obtain ⟨u, m, v, rfl, hu, hm, hv, hkeep⟩ := h
  rw [List.append_assoc, List.cons_append]
  refine .prepend hu (QueueRef.leavesNone_cons hlab hm ?_ (hclean.prepend hkeep))
  intro m' hm'
  rcases List.mem_append.mp hm' with hm' | hm'
  · exact hv m' hm'
  · exact hw m' hm'

/-- `wait_mutex_local_handoff` and `wait_global_handoff`: an entry is left in the queue only by a
    success. -/
theorem Apart.traced_waitHandoff (h : Apart q) {owner : Place Mem ℕ} {entry : π} {l : Location}
    {deadline : ℤ} {r : Result × ℕ} (ht : Traced (waitHandoff q owner entry l deadline) t r) :
    r.1 ≠ .success ∧ q.LeavesNone t ∨ r.1 = .success ∧ Entered q r.2 t := by
  obtain ⟨t₀, t₁, ⟨⟩, rfl, hreg, h₁⟩ := ht.of_bind
  have hreg := (h.spares_ctx (k := 0) l (some false)).labels hreg
  obtain ⟨t₁, t₂, ⟨res, slot⟩, rfl, henq, h₂⟩ := h₁.of_bind
  rcases QueueRef.traced_enqueue h.lab henq with ⟨hres, hnone⟩ | ⟨hres, u, m, rfl, hu, hm⟩
  · left
    dsimp only at hres h₂
    rw [if_pos hres] at h₂
    obtain ⟨t₂, t₃, ⟨⟩, rfl, hunreg, h₃⟩ := h₂.of_bind
    obtain ⟨rfl, rfl⟩ := h₃.of_ret
    have hunreg := (h.spares_ctx (k := 0) l none).labels hunreg
    refine ⟨hres, QueueRef.leavesNone_of_uncounting ?_⟩
    simp only [List.append_nil, List.mem_append]
    rintro m (hm | hm | hm)
    · exact hreg m hm
    · exact hnone m hm
    · exact hunreg m hm
  · dsimp only at hres hm h₂
    rw [if_neg (not_not.mpr hres)] at h₂
    obtain ⟨t₂, t₃, handed, rfl, hwait, h₃⟩ := h₂.of_bind
    have hspare := h.spares_awaitHandoff (k := slot) owner l deadline
    have hentered : ∀ w, (∀ m ∈ w, q.Uncounting m.label) →
        (∀ m ∈ w, q.LiveAt slot m.before → q.LiveAt slot m.after) →
        Entered q slot (t₀ ++ (u ++ [m] ++ w)) := by
      intro w hlab hkeep
      refine ⟨t₀ ++ u, m, w, by simp, fun m hm => ?_, hm, hlab, hkeep⟩
      rcases List.mem_append.mp hm with hm | hm
      · exact hreg m hm
      · exact hu m hm
    cases handed with
    | true =>
      right
      rw [if_pos rfl] at h₃
      obtain ⟨t₃, t₄, ⟨⟩, rfl, hunreg, h₄⟩ := h₃.of_bind
      obtain ⟨rfl, rfl⟩ := h₄.of_ret
      have hall : q.Spares slot ((awaitHandoff q owner l deadline slot).bind fun _ =>
          unregisterWaiter l) := hspare.bind fun _ => h.spares_ctx l none
      have htr := hwait.bind (k := fun _ => unregisterWaiter l) hunreg
      rw [List.append_nil]
      exact ⟨rfl, hentered _ (hall.labels htr) (hall.moves htr)⟩
    | false =>
      left
      rw [if_neg (by decide)] at h₃
      obtain ⟨t₃, t₄, ⟨⟩, rfl, hclean, h₄⟩ := h₃.of_bind
      obtain ⟨t₄, t₅, ⟨⟩, rfl, hunreg, h₅⟩ := h₄.of_bind
      obtain ⟨rfl, rfl⟩ := h₅.of_ret
      refine ⟨by simp, ?_⟩
      have hbefore := hentered t₂ (hspare.labels hwait) (hspare.moves hwait)
      have hdone := hbefore.leavesNone h.lab
        ((QueueRef.uncounting_cleanTimeout h.lab slot).labels hclean)
        (QueueRef.traced_cleanTimeout h.lawful hclean)
      have hdone := hdone.append ((h.spares_ctx (k := 0) l none).labels hunreg)
      simpa using hdone

/-- Steps of a woken caller with an entry at ticket `slot`: they clean it up, or `more` follows and
    they have left it alone. -/
structure Minds (q : QueueRef Mem Label π) (slot : ℕ) (t : List (OwnStep Mem Label)) (more : Prop) :
    Prop where
  labels : ∀ m ∈ t, q.Uncounting m.label
  entry : q.CleanedUp slot t ∨ more ∧ ∀ m ∈ t, q.LiveAt slot m.before → q.LiveAt slot m.after

section Minds

variable {slot : ℕ} {more more' : Prop} {t' : List (OwnStep Mem Label)}

theorem Minds.mono (h : Minds q slot t more) (hm : more → more') : Minds q slot t more' :=
  ⟨h.labels, h.entry.imp_right fun he => ⟨hm he.1, he.2⟩⟩

theorem Minds.cleanedUp (h : Minds q slot t more) (hm : ¬ more) : q.CleanedUp slot t := by
  rcases h.entry with hclean | ⟨hmore, -⟩
  · exact hclean
  · exact absurd hmore hm

/-- What follows is as careful. -/
theorem Minds.append (h : Minds q slot t more) (h' : Minds q slot t' more') :
    Minds q slot (t ++ t') more' := by
  constructor
  · intro m hm
    rcases List.mem_append.mp hm with hm | hm
    · exact h.labels m hm
    · exact h'.labels m hm
  · rcases h.entry with hclean | ⟨-, hkeep⟩
    · exact .inl hclean.append
    · rcases h'.entry with hclean | ⟨hmore, hkeep'⟩
      · exact .inl (hclean.prepend hkeep)
      · refine .inr ⟨hmore, fun m hm => ?_⟩
        rcases List.mem_append.mp hm with hm | hm
        · exact hkeep m hm
        · exact hkeep' m hm

/-- A step that only reads. -/
theorem Minds.read {e : Label} {s : Mem} (he : q.Uncounting e) : Minds q slot [⟨e, s, s⟩] True :=
  ⟨List.forall_mem_singleton.mpr he, .inr ⟨trivial, List.forall_mem_singleton.mpr id⟩⟩

end Minds

theorem Apart.minds_cleanTimeout (h : Apart q) {slot : ℕ} {b : Unit}
    (ht : Traced (q.cleanTimeout slot) t b) : Minds q slot t False :=
  ⟨(QueueRef.uncounting_cleanTimeout h.lab slot).labels ht,
    .inl (QueueRef.traced_cleanTimeout h.lawful ht)⟩

/-- The attempt of a woken caller: with success it pops its entry, else it changes nothing. -/
theorem Apart.minds_claim (h : Apart q) {e : Label} {owner : Place Mem ℕ} {x v slot : ℕ} {ok : Bool}
    (he : q.Uncounting e) (hown : ∀ v s, q.ref.get (owner.set v s) = q.ref.get s)
    (ht : Traced (do
      let (ok, _) ← casWeakAt e owner x v
      if !ok then
        return false
      if true then
        q.popHead slot
      return true) t ok) : Minds q slot t (ok = false) := by
  obtain ⟨s, t, ⟨-, rfl, h₁⟩ | ⟨rfl, h₁⟩⟩ := ht.casWeak
  · dsimp only at h₁
    rw [if_neg (by decide), if_pos rfl] at h₁
    obtain ⟨t₁, t₂, ⟨⟩, rfl, hpop, h₂⟩ := h₁.of_bind
    obtain ⟨rfl, rfl⟩ := h₂.of_ret
    have hpopped := (QueueRef.traced_popHead h.lawful hpop).1
    have hlabels := (QueueRef.uncounting_popHead h.lab slot).labels hpop
    rw [List.append_nil]
    refine ⟨List.forall_mem_cons.mpr ⟨he, hlabels⟩, .inl ?_⟩
    refine .prepend (u := [_]) (List.forall_mem_singleton.mpr fun hlive => ?_) hpopped
    have hseq : (q.seq (q.index slot)).get (owner.set v s) = (q.seq (q.index slot)).get s :=
      congrArg (fun r => (r.slots (q.index slot)).seq) (hown v s)
    rwa [QueueRef.LiveAt, hseq]
  · dsimp only at h₁
    rw [if_pos (by decide)] at h₁
    obtain ⟨rfl, rfl⟩ := h₁.of_ret
    exact (Minds.read he).mono fun _ => rfl

end Wait

/-- A deadline test is one look at the clock. -/
theorem traced_inTime {α : Type} {e : Label} {deadline : ℤ} {k : Bool → Call α} {a : α}
    {t : List (OwnStep Mem Label)} (h : Traced ((inTime e deadline).bind k) t a) :
    ∃ s t', t = [⟨e, s, s⟩] ++ t' ∧ Traced (k (s.clock ≤ deadline)) t' a := by
  obtain ⟨t₁, t₂, now, rfl, hin, h₁⟩ := h.of_bind
  obtain ⟨s, t₁, rfl, hret⟩ := hin.load
  obtain ⟨rfl, rfl⟩ := hret.of_ret
  exact ⟨s, t₂, rfl, h₁⟩

/-! ### The local level -/

section LocalLevel

variable {l : Location} {deadline : ℤ} {g slot : ℕ} {t : List (OwnStep Mem Label)}

theorem apart_local (n : NodeId) (g : ℕ) : Apart (localQueue n g) where
  lawful := by
    refine ⟨fun v s => ?_, fun v w s => ?_, fun s => ?_⟩ <;> simp [localQueue, Local.queue, Local.field]
  lab := fun _ _ h => by
    cases h
    rfl
  step := fun _ h => by cases h
  wait := fun _ _ h => by cases h
  ctx := fun _ _ _ => rfl

theorem localQueue_owner (n : NodeId) (g v : ℕ) (s : Mem) :
    (localQueue n g).ref.get ((Local.owner n g).set v s) = (localQueue n g).ref.get s := by
  simp [localQueue, Local.queue, Local.owner, Local.field]

/-- A thread that has not waited yet counts no entry while it spins. -/
theorem uncounting_spinFresh : Quiet (fun _ _ => True) (localQueue l.nodeId g).Uncounting
    (spinFresh l g slot) := by
  refine .loop fun i => .ite trivial (.bind (.read (fun _ h => by cases h) fun _ => trivial) ?_)
  refine fun waiting => .ite trivial (.bind (.bind (.casWeak (fun _ h => by cases h)
    (fun _ => trivial) fun _ => trivial) fun r => .ite trivial ?_) fun _ => trivial)
  exact .ite (.bind (QueueRef.uncounting_popHead (apart_local _ _).lab slot) fun _ => trivial) trivial

/-- One time round the loop of a woken thread. -/
theorem minds_spinRound {x : Unit ⊕ SpinResult} (ht : Traced (do
      let now ← inTime .step deadline
      if now then
        let ok ← tryClaimMutexLocal l g true slot
        return if ok then .inr .acquired else .inl ()
      (localQueue l.nodeId g).cleanTimeout slot
      return .inr .timeout) t x) :
    Minds (localQueue l.nodeId g) slot t (x = .inl ()) ∧ x ≠ .inr .needWait := by
  have h := apart_local l.nodeId g
  obtain ⟨s, t, rfl, h₁⟩ := traced_inTime ht
  have hread : Minds (localQueue l.nodeId g) slot [⟨.step, s, s⟩] True := .read h.step
  by_cases hnow : s.clock ≤ deadline
  · rw [if_pos (decide_eq_true hnow)] at h₁
    obtain ⟨t₁, t₂, ok, rfl, hclaim, h₂⟩ := h₁.of_bind
    obtain ⟨rfl, rfl⟩ := h₂.of_ret
    have hclaim := h.minds_claim (fun _ h => by cases h) (localQueue_owner _ _) hclaim
    rw [List.append_nil]
    refine ⟨(hread.append hclaim).mono fun hok => ?_, ?_⟩
    · rw [hok]
      rfl
    · cases ok <;> simp
  · rw [if_neg (by simpa using hnow)] at h₁
    obtain ⟨t₁, t₂, ⟨⟩, rfl, hclean, h₂⟩ := h₁.of_bind
    obtain ⟨rfl, rfl⟩ := h₂.of_ret
    rw [List.append_nil]
    exact ⟨(hread.append (h.minds_cleanTimeout hclean)).mono False.elim, by simp⟩

/-- A woken thread cleans its entry up, whether it gets the lock or not. -/
theorem minds_spinAwakened {r : SpinResult} (ht : Traced (spinAwakened l g deadline slot) t r) :
    Minds (localQueue l.nodeId g) slot t False ∧ r ≠ .needWait := by
  rw [spinAwakened, traced_loop_iff] at ht
  obtain ⟨i, hrounds⟩ : ∃ i : Unit, Rounds _ i t r := ⟨(), ht⟩
  clear ht
  induction hrounds with
  | last h =>
    obtain ⟨hminds, hne⟩ := minds_spinRound h
    exact ⟨hminds.mono (by simp), fun hr => hne (congrArg Sum.inr hr)⟩
  | more h _ ih =>
    obtain ⟨hminds, -⟩ := minds_spinRound h
    exact ⟨hminds.append ih.1, ih.2⟩

/-- The first time round: an entry is left only with the hand-off. -/
theorem traced_lockLocalRound_fresh {x : (ℕ × Bool) ⊕ Result}
    (ht : Traced (lockLocalRound l g deadline slot false) t x) :
    (localQueue l.nodeId g).LeavesNone t ∧ (∃ r, x = .inr r) ∨
      ∃ slot', x = .inl (slot', true) ∧ Entered (localQueue l.nodeId g) slot' t := by
  have h := apart_local l.nodeId g
  obtain ⟨s, t, rfl, h₁⟩ := traced_inTime ht
  have hread : ∀ m ∈ [(⟨.deadlineTest false, s, s⟩ : OwnStep Mem Label)],
      (localQueue l.nodeId g).Uncounting m.label :=
    List.forall_mem_singleton.mpr fun _ h => by cases h
  by_cases hnow : s.clock ≤ deadline
  · rw [if_neg (by simpa using hnow)] at h₁
    obtain ⟨t₁, t₂, r, rfl, hspin, h₂⟩ := h₁.of_bind
    rw [spinTryMutexLocal, if_neg (by decide)] at hspin
    have hspin := uncounting_spinFresh.labels hspin
    have hbefore : ∀ m ∈ [(⟨.deadlineTest false, s, s⟩ : OwnStep Mem Label)] ++ t₁,
        (localQueue l.nodeId g).Uncounting m.label := by
      intro m hm
      rcases List.mem_append.mp hm with hm | hm
      · exact hread m hm
      · exact hspin m hm
    rw [← List.append_assoc]
    cases r with
    | acquired =>
      obtain ⟨rfl, rfl⟩ := h₂.of_ret
      rw [List.append_nil]
      exact .inl ⟨QueueRef.leavesNone_of_uncounting hbefore, _, rfl⟩
    | timeout =>
      obtain ⟨rfl, rfl⟩ := h₂.of_ret
      rw [List.append_nil]
      exact .inl ⟨QueueRef.leavesNone_of_uncounting hbefore, _, rfl⟩
    | needWait =>
      obtain ⟨t₂, t₃, ⟨res, slot'⟩, rfl, hwait, h₃⟩ := h₂.of_bind
      obtain ⟨rfl, rfl⟩ := h₃.of_ret
      rw [List.append_nil]
      rcases h.traced_waitHandoff hwait with ⟨hres, hnone⟩ | ⟨hres, hin⟩
      · exact .inl ⟨hnone.prepend hbefore, res, if_pos hres⟩
      · exact .inr ⟨slot', if_neg (not_not.mpr hres), hin.prepend hbefore⟩
  · left
    rw [if_pos (by simpa using hnow)] at h₁
    obtain ⟨rfl, rfl⟩ := h₁.of_ret
    exact ⟨QueueRef.leavesNone_of_uncounting hread, _, rfl⟩

/-- A woken thread in time for the loop test cleans up and returns. -/
theorem minds_lockLocalRound {x : (ℕ × Bool) ⊕ Result}
    (htime : ∀ m ∈ t, m.label = .deadlineTest true → m.before.clock ≤ deadline)
    (ht : Traced (lockLocalRound l g deadline slot true) t x) :
    Minds (localQueue l.nodeId g) slot t False ∧ ∃ r, x = .inr r := by
  obtain ⟨s, t, rfl, h₁⟩ := traced_inTime ht
  have hread : Minds (localQueue l.nodeId g) slot [⟨.deadlineTest true, s, s⟩] True :=
    .read fun _ h => by cases h
  have hnow : s.clock ≤ deadline := htime _ List.mem_cons_self rfl
  rw [if_neg (by simpa using hnow)] at h₁
  obtain ⟨t₁, t₂, r, rfl, hspin, h₂⟩ := h₁.of_bind
  rw [spinTryMutexLocal, if_pos rfl] at hspin
  obtain ⟨hminds, hne⟩ := minds_spinAwakened hspin
  cases r with
  | acquired =>
    obtain ⟨rfl, rfl⟩ := h₂.of_ret
    rw [List.append_nil]
    exact ⟨hread.append hminds, _, rfl⟩
  | timeout =>
    obtain ⟨rfl, rfl⟩ := h₂.of_ret
    rw [List.append_nil]
    exact ⟨hread.append hminds, _, rfl⟩
  | needWait => exact absurd rfl hne

/-- `lock_mutex_local` leaves no entry behind if no loop test after the hand-off is late. -/
theorem leavesNone_lockMutexLocal {r : Result}
    (htime : ∀ m ∈ t, m.label = .deadlineTest true → m.before.clock ≤ deadline)
    (ht : Traced (lockMutexLocal l g deadline) t r) : (localQueue l.nodeId g).LeavesNone t := by
  rw [lockMutexLocal, traced_loop_iff] at ht
  cases ht with
  | last h =>
    rcases traced_lockLocalRound_fresh h with ⟨hnone, -⟩ | ⟨_, hx, -⟩
    · exact hnone
    · cases hx
  | more h hrest =>
    rcases traced_lockLocalRound_fresh h with ⟨-, _, hx⟩ | ⟨slot', hx, hin⟩
    · cases hx
    cases hx
    -- the woken round is the last one
    cases hrest with
    | last h' =>
      obtain ⟨hminds, -⟩ :=
        minds_lockLocalRound (fun m hm => htime m (List.mem_append_right _ hm)) h'
      exact hin.leavesNone (apart_local _ _).lab hminds.labels (hminds.cleanedUp id)
    | more h' _ =>
      obtain ⟨-, _, hx⟩ := minds_lockLocalRound
        (fun m hm => htime m (List.mem_append_right _ (List.mem_append_left _ hm))) h'
      cases hx

end LocalLevel

/-! ### The global level -/

section GlobalLevel

variable {l : Location} {deadline : ℤ} {slot : ℕ} {t : List (OwnStep Mem Label)}

theorem apart_shared : Apart sharedQueue where
  lawful := ⟨fun _ _ => rfl, fun _ _ _ => rfl, fun _ => rfl⟩
  lab := fun _ _ h => by
    cases h
    rfl
  step := fun _ h => by cases h
  wait := fun _ _ h => by cases h
  ctx := fun _ _ _ => rfl

theorem uncounting_tryLockFast (b : Bool) :
    Quiet (fun _ _ => True) sharedQueue.Uncounting (tryLockFast l b slot) := by
  refine .bind (.read (fun _ h => by cases h) fun _ => trivial) fun waiting => .ite trivial ?_
  refine .bind (.casWeak (fun _ h => by cases h) (fun _ => trivial) fun _ => trivial) fun r =>
    .ite trivial ?_
  exact .ite (.bind (QueueRef.uncounting_popHead apart_shared.lab slot) fun _ => trivial) trivial

theorem minds_tryLockFast {ok : Bool} (ht : Traced (tryLockFast l true slot) t ok) :
    Minds sharedQueue slot t (ok = false) := by
  obtain ⟨s, t, rfl, h₁⟩ := ht.load
  rw [if_neg (by simp)] at h₁
  have hread : Minds sharedQueue slot [⟨.shared .step, s, s⟩] True := .read fun _ h => by cases h
  exact hread.append (apart_shared.minds_claim (fun _ h => by cases h) (fun _ _ => rfl) h₁)

/-- The recursion test is one look at `lock_owner`. -/
theorem traced_checkRecursive {α : Type} {b : Bool} {k : Result → Call α} {a : α}
    (h : Traced ((checkRecursiveGlobalOwner l b).bind k) t a) :
    ∃ s t', t = [⟨.recursionTest b, s, s⟩] ++ t' ∧
      Traced (k (if s.shm.lockOwner = makeGlobalOwner l then .error else .success)) t' a := by
  obtain ⟨t₁, t₂, check, rfl, hin, h₁⟩ := h.of_bind
  obtain ⟨s, t₁, rfl, hret⟩ := hin.load
  obtain ⟨rfl, rfl⟩ := hret.of_ret
  exact ⟨s, t₂, rfl, h₁⟩

/-- A woken caller cleans up, or goes round once more. -/
theorem minds_acquireRound {n : ℕ} {x : Progress ⊕ Result}
    (hown : ∀ m ∈ t, m.label = .recursionTest true → m.before.shm.lockOwner ≠ makeGlobalOwner l)
    (ht : Traced (acquireRound l deadline ⟨n, slot, true⟩) t x) :
    Minds sharedQueue slot t (∃ v, x = .inl v) ∧ ∀ v, x = .inl v → v = ⟨n, slot, true⟩ := by
  obtain ⟨s, t, rfl, h₁⟩ := traced_inTime ht
  have hread : Minds sharedQueue slot [⟨.deadlineTest true, s, s⟩] True := .read fun _ h => by cases h
  by_cases hnow : s.clock ≤ deadline
  · rw [if_neg (by simpa using hnow)] at h₁
    obtain ⟨t₁, t₂, ok, rfl, hclaim, h₂⟩ := h₁.of_bind
    have hclaim := minds_tryLockFast hclaim
    cases ok with
    | true =>
      rw [if_pos rfl] at h₂
      obtain ⟨rfl, rfl⟩ := h₂.of_ret
      rw [List.append_nil]
      exact ⟨hread.append (hclaim.mono fun h => Bool.noConfusion h), by simp⟩
    | false =>
      rw [if_neg (by decide)] at h₂
      obtain ⟨s', t₂, rfl, h₃⟩ := traced_checkRecursive h₂
      have hne : s'.shm.lockOwner ≠ makeGlobalOwner l :=
        hown ⟨_, s', s'⟩ (by simp) rfl
      rw [if_neg hne, if_neg (by decide), if_pos rfl] at h₃
      obtain ⟨rfl, rfl⟩ := h₃.of_ret
      have hcheck : Minds sharedQueue slot [⟨.recursionTest true, s', s'⟩] True :=
        .read fun _ h => by cases h
      rw [List.append_nil]
      refine ⟨hread.append ((hclaim.append hcheck).mono fun _ => ⟨_, rfl⟩), fun v hv => ?_⟩
      cases hv
      rfl
  · rw [if_pos (by simpa using hnow), if_pos rfl] at h₁
    obtain ⟨t₁, t₂, ⟨⟩, rfl, hclean, h₂⟩ := h₁.of_bind
    obtain ⟨rfl, rfl⟩ := h₂.of_ret
    rw [List.append_nil]
    exact ⟨hread.append ((apart_shared.minds_cleanTimeout hclean).mono False.elim), by simp⟩

/-- Where a round of a caller that has not waited yet leads. -/
inductive FreshRound (l : Location) (t : List (OwnStep Mem Label)) : Progress ⊕ Result → Prop
  | returns {r : Result} (h : sharedQueue.LeavesNone t) : FreshRound l t (.inr r)
  | spins {n slot : ℕ} (h : ∀ m ∈ t, sharedQueue.Uncounting m.label) :
      FreshRound l t (.inl ⟨n, slot, false⟩)
  | woken {n slot : ℕ} (h : Entered sharedQueue slot t) : FreshRound l t (.inl ⟨n, slot, true⟩)

theorem traced_acquireRound_fresh {n : ℕ} {x : Progress ⊕ Result}
    (ht : Traced (acquireRound l deadline ⟨n, slot, false⟩) t x) : FreshRound l t x := by
  obtain ⟨s, t, rfl, h₁⟩ := traced_inTime ht
  have hread : ∀ m ∈ [(⟨.deadlineTest false, s, s⟩ : OwnStep Mem Label)],
      sharedQueue.Uncounting m.label := List.forall_mem_singleton.mpr fun _ h => by cases h
  have happend : ∀ {t u : List (OwnStep Mem Label)}, (∀ m ∈ t, sharedQueue.Uncounting m.label) →
      (∀ m ∈ u, sharedQueue.Uncounting m.label) → ∀ m ∈ t ++ u, sharedQueue.Uncounting m.label :=
    fun h h' m hm => (List.mem_append.mp hm).elim (h m) (h' m)
  by_cases hnow : s.clock ≤ deadline
  · rw [if_neg (by simpa using hnow)] at h₁
    obtain ⟨t₁, t₂, ok, rfl, hclaim, h₂⟩ := h₁.of_bind
    have hlabels := happend hread ((uncounting_tryLockFast false).labels hclaim)
    rw [← List.append_assoc]
    clear hclaim
    cases ok with
    | true =>
      rw [if_pos rfl] at h₂
      obtain ⟨rfl, rfl⟩ := h₂.of_ret
      rw [List.append_nil]
      exact .returns (QueueRef.leavesNone_of_uncounting hlabels)
    | false =>
      rw [if_neg (by decide)] at h₂
      obtain ⟨s', t₂, rfl, h₃⟩ := traced_checkRecursive h₂
      have hcheck := happend hlabels (u := [⟨.recursionTest false, s', s'⟩])
        (List.forall_mem_singleton.mpr fun _ h => by cases h)
      rw [← List.append_assoc]
      by_cases hown : s'.shm.lockOwner = makeGlobalOwner l
      · rw [if_pos hown, if_pos (by decide)] at h₃
        obtain ⟨rfl, rfl⟩ := h₃.of_ret
        rw [List.append_nil]
        exact .returns (QueueRef.leavesNone_of_uncounting hcheck)
      rw [if_neg hown, if_neg (by decide), if_neg Bool.false_ne_true] at h₃
      split at h₃
      · obtain ⟨t₂, t₃, ⟨res, slot'⟩, rfl, hwait, h₄⟩ := h₃.of_bind
        obtain ⟨rfl, rfl⟩ := h₄.of_ret
        rw [List.append_nil]
        rcases apart_shared.traced_waitHandoff hwait with ⟨hres, hnone⟩ | ⟨hres, hin⟩
        · dsimp only at hres
          rw [if_pos hres]
          exact .returns (hnone.prepend hcheck)
        · dsimp only at hres
          rw [if_neg (not_not.mpr hres)]
          exact .woken (hin.prepend hcheck)
      · obtain ⟨rfl, rfl⟩ := h₃.of_ret
        rw [List.append_nil]
        exact .spins hcheck
  · rw [if_pos (by simpa using hnow), if_neg Bool.false_ne_true] at h₁
    obtain ⟨rfl, rfl⟩ := h₁.of_ret
    exact .returns (QueueRef.leavesNone_of_uncounting hread)

/-- The rounds of a woken caller clean its entry up. -/
theorem minds_acquireLoop {n : ℕ} {r : Result}
    (hown : ∀ m ∈ t, m.label = .recursionTest true → m.before.shm.lockOwner ≠ makeGlobalOwner l)
    (ht : Rounds (acquireRound l deadline) ⟨n, slot, true⟩ t r) : Minds sharedQueue slot t False := by
  generalize hv : (⟨n, slot, true⟩ : Progress) = v at ht
  induction ht with
  | last h =>
    subst hv
    exact (minds_acquireRound hown h).1.mono (by simp)
  | more h _ ih =>
    subst hv
    obtain ⟨hround, hsame⟩ := minds_acquireRound (fun m hm => hown m (List.mem_append_left _ hm)) h
    exact hround.append
      (ih (fun m hm => hown m (List.mem_append_right _ hm)) (hsame _ rfl).symm)

/-- `acquire_global` leaves no entry behind if nobody else acts under its caller's identity. -/
theorem leavesNone_acquireGlobal {r : Result}
    (hown : ∀ m ∈ t, m.label = .recursionTest true → m.before.shm.lockOwner ≠ makeGlobalOwner l)
    (ht : Traced (acquireGlobal l deadline) t r) : sharedQueue.LeavesNone t := by
  obtain ⟨s, t, rfl, h₁⟩ := traced_checkRecursive ht
  refine .prepend (List.forall_mem_singleton.mpr fun _ h => by cases h) ?_
  by_cases hrec : s.shm.lockOwner = makeGlobalOwner l
  · rw [if_pos hrec, if_pos (by decide)] at h₁
    obtain ⟨rfl, -⟩ := h₁.of_ret
    trivial
  rw [if_neg hrec, if_neg (by decide), traced_loop_iff] at h₁
  replace hown : ∀ m ∈ t, m.label = .recursionTest true →
      m.before.shm.lockOwner ≠ makeGlobalOwner l := fun m hm => hown m (List.mem_append_right _ hm)
  clear ht
  suffices hfrom : ∀ v, v.isAwakened = false → Rounds (acquireRound l deadline) v t r →
      sharedQueue.LeavesNone t from hfrom _ rfl h₁
  clear h₁
  intro v hv ht
  induction ht with
  | @last v t r h =>
    obtain ⟨n, slot, b⟩ := v
    obtain rfl : b = false := hv
    cases traced_acquireRound_fresh h with
    | returns hnone => exact hnone
  | @more v v' t t' r h hrest ih =>
    obtain ⟨n, slot, b⟩ := v
    obtain rfl : b = false := hv
    have hown' := fun m hm => hown m (List.mem_append_right t hm)
    cases traced_acquireRound_fresh h with
    | spins hspins => exact .prepend hspins (ih hown' rfl)
    | woken hin =>
      have hminds := minds_acquireLoop hown' hrest
      exact hin.leavesNone apart_shared.lab hminds.labels (hminds.cleanedUp id)

end GlobalLevel

/-! ### What is left behind -/

/-- Whatever other threads do: a call of `lock_mutex_local` whose loop tests after the hand-off are in
    time leaves no entry in the queue of the local lock, and a call of `acquire_global` that does not
    find its own identity in `lock_owner` leaves none in the shared queue. -/
theorem lock_leaves_none (l : Location) (g : ℕ) (deadline : ℤ) (t : List (OwnStep Mem Label)) (r : Result) :
    (Traced (lockMutexLocal l g deadline) t r →
      (∀ m ∈ t, m.label = .deadlineTest true → m.before.clock ≤ deadline) →
      (localQueue l.nodeId g).LeavesNone t) ∧
    (Traced (acquireGlobal l deadline) t r →
      (∀ m ∈ t, m.label = .recursionTest true → m.before.shm.lockOwner ≠ makeGlobalOwner l) →
      sharedQueue.LeavesNone t) :=
  ⟨fun ht htime => leavesNone_lockMutexLocal htime ht,
    fun ht hown => leavesNone_acquireGlobal hown ht⟩

/-- Both queues empty, but with a thread counted that is about to enter. -/
def aboutToEnter : Mem :=
  { Mem.init fun _ => .taken with
    shm := ⟨lockInvalidOwner, { RingQueue.init .reset with count := 1 }, mutexReady⟩
    locals := fun _ _ => { MutexLocalLock.init with queue := { RingQueue.init .reset with count := 1 } } }

/-- A caller that goes through both queues alone hands the lock to itself, and leaves nothing. -/
theorem lock_leaves_none_alone :
    (∃ t, Traced (lockMutexLocal ⟨1, 0⟩ 0 5) t .success ∧
      (∃ m ∈ t, m.label = .localQ 0 0 (.counted 0)) ∧ (localQueue 0 0).LeavesNone t) ∧
    ∃ t, Traced (acquireGlobal ⟨1, 0⟩ 5) t .success ∧ (∃ m ∈ t, m.label = .shared (.counted 0)) ∧
      sharedQueue.LeavesNone t := by
  constructor
  · have hrun : ((trail 300 (lockMutexLocal ⟨1, 0⟩ 0 5) aboutToEnter).any fun x =>
        x.2 = .success ∧ (∃ m ∈ x.1, m.label = .localQ 0 0 (.counted 0)) ∧
          ∀ m ∈ x.1, m.label = .deadlineTest true → m.before.clock ≤ 5) = true := by decide +kernel
    obtain ⟨⟨t, r⟩, ht, hx⟩ := (Option.any_eq_true _ _).mp hrun
    obtain ⟨rfl, hentry, htime⟩ := of_decide_eq_true hx
    have ht := traced_of_trail ht
    exact ⟨t, ht, hentry, (lock_leaves_none ⟨1, 0⟩ 0 5 t .success).1 ht htime⟩
  · have hrun : ((trail 600 (acquireGlobal ⟨1, 0⟩ 5) aboutToEnter).any fun x =>
        x.2 = .success ∧ (∃ m ∈ x.1, m.label = .shared (.counted 0)) ∧
          ∀ m ∈ x.1, m.label = .recursionTest true →
            m.before.shm.lockOwner ≠ makeGlobalOwner ⟨1, 0⟩) = true := by decide +kernel
    obtain ⟨⟨t, r⟩, ht, hx⟩ := (Option.any_eq_true _ _).mp hrun
    obtain ⟨rfl, hentry, hown⟩ := of_decide_eq_true hx
    have ht := traced_of_trail ht
    exact ⟨t, ht, hentry, (lock_leaves_none ⟨1, 0⟩ 0 5 t .success).2 ht hown⟩

/-- Threads 1 and 2 of node 0; thread 2 has the mutex and thread 1 waits for it, for a millisecond.
    Thread 2 unlocks and hands over; before thread 1 gets to its loop test two milliseconds pass. -/
def lateTest : List (Config.Piece Actor Label Op) :=
  [.call (.thread ⟨2, 0⟩) (.lock 0), .finish (.thread ⟨2, 0⟩),
    .call (.thread ⟨1, 0⟩) (.lock 1), .upTo (.thread ⟨1, 0⟩) (.wait ⟨1, 0⟩),
    .call (.thread ⟨2, 0⟩) .unlock, .finish (.thread ⟨2, 0⟩),
    .upTo (.thread ⟨1, 0⟩) (.deadlineTest true),
    .call .time .tick, .steps .time [2000000], .finish .time,
    .finish (.thread ⟨1, 0⟩)]

/-- Thread 1 has returned, and its entry is still NOTIFIED and counted. -/
theorem lock_leaves_notified : ∃ x : MutexConfig,
    Config.Reachable mutexClient (MutexConfig.init (Mem.init fun _ => .taken)) x ∧
      x.pc (.thread ⟨1, 0⟩) = none ∧ x.held (.thread ⟨1, 0⟩) = .idle ∧
      ((x.mem.locals 0 0).queue.slots 0).seq = .notified ∧
      ((x.mem.locals 0 0).queue.slots 0).payload = ⟨.x, 1⟩ ∧ (x.mem.locals 0 0).queue.count = 1 := by
  have hrun : ∃ x : MutexConfig,
      Config.Reachable mutexClient (MutexConfig.init (Mem.init fun _ => .taken)) x ∧
      ((x.pc (.thread ⟨1, 0⟩)).isNone = true ∧ x.held (.thread ⟨1, 0⟩) = .idle ∧
      ((x.mem.locals 0 0).queue.slots 0).seq = .notified ∧
      ((x.mem.locals 0 0).queue.slots 0).payload = ⟨.x, 1⟩ ∧ (x.mem.locals 0 0).queue.count = 1) :=
    Config.reachable_of_runAll lateTest (by decide +kernel)
  obtain ⟨x, hx, hpc, hrest⟩ := hrun
  exact ⟨x, hx, Option.isNone_iff_eq_none.mp hpc, hrest⟩

end Mutex

end UbsAtomic
