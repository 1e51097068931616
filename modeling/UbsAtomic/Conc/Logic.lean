import Mathlib.Tactic.Common
import UbsAtomic.Conc.Atomic

/-! Proof outlines for threads that share a memory.

    Every thread carries a ghost value: where it stands, as far as the argument cares. An `Outline`
    fixes one invariant over the memory and all ghost values. A thread may assume the invariant
    before each of its steps and has to restore it after the step, for some new ghost value of its
    own. Between two steps the others may do anything that keeps the invariant and leaves this
    thread's ghost alone, so the ghost is all a thread remembers.

        wp p Q g      from ghost g, every step of p keeps the invariant; p ends with Q

    `lab` ties a ghost to the label of the step the thread stands before, `cond` is what a run has
    to meet at a labelled step, and `claim` is what has to be true there. -/

namespace Conc

structure Outline (T σ ε G : Type) where
  inv : σ → (T → G) → Prop
  lab : Option ε → G → Prop
  cond : (T → Option ε) → T → ε → σ → Prop
  claim : T → ε → σ → Prop

variable {T σ ε G α β ι : Type} [DecidableEq T]

/-- What thread `t` with ghost `g` may assume right before a step labelled `e`. -/
structure Outline.Pre (P : Outline T σ ε G) (t : T) (e : ε) (g : G) (s : σ) (γ : T → G) : Prop where
  inv : P.inv s γ
  own : γ t = g
  run : ∃ ℓ : T → Option ε, (∀ u, P.lab (ℓ u) (γ u)) ∧ P.cond ℓ t e s

/-- Keeping the ghost keeps all ghosts. -/
theorem Outline.Pre.update {P : Outline T σ ε G} {t : T} {e : ε} {g : G} {s : σ} {γ : T → G}
    (h : P.Pre t e g s γ) : Function.update γ t g = γ :=
  Function.update_eq_self_iff.mpr h.own.symm

/-- Thread `t` with ghost `g` may stop in memory `s` with the result `b`. -/
abbrev Outline.Next (P : Outline T σ ε G) (t : T) (keep : G → G → Prop) (Q : α → G → Prop) (g : G)
    (γ : T → G) (s : σ) (b : α) : Prop :=
  ∃ g', keep g g' ∧ P.inv s (Function.update γ t g') ∧ P.lab none g' ∧ Q b g'

/-- Ghost `g` of thread `t` does not notice steps along `R` with labels in `N`. -/
structure Outline.Stable (P : Outline T σ ε G) (t : T) (keep : G → G → Prop) (R : σ → σ → Prop)
    (N : ε → Prop) (g : G) : Prop where
  inv : ∀ s s' γ, γ t = g → R s s' → P.inv s γ → P.inv s' γ
  rest : P.lab none g
  lab : ∀ e, N e → P.lab (some e) g
  claim : ∀ e s, N e → P.claim t e s
  keep : keep g g

/-! ### The threads of a list -/

/-- `L` lists the threads whose ghost satisfies `P`. -/
structure Tracks (L : List T) (γ : T → G) (P : G → Prop) : Prop where
  mem : ∀ t, t ∈ L ↔ P (γ t)
  nodup : L.Nodup

namespace Tracks

variable {L : List T} {γ : T → G} {P : G → Prop} {t : T} {g : G}

theorem same (h : Tracks L γ P) (hg : P g ↔ P (γ t)) : Tracks L (Function.update γ t g) P := by
  refine ⟨fun u => ?_, h.nodup⟩
  by_cases hut : u = t
  · subst hut
    rw [Function.update_self, hg]
    exact h.mem u
  · rw [Function.update_of_ne hut]
    exact h.mem u

theorem push (h : Tracks L γ P) (ht : ¬ P (γ t)) (hg : P g) :
    Tracks (t :: L) (Function.update γ t g) P := by
  refine ⟨fun u => ?_, List.nodup_cons.mpr ⟨fun hm => ht ((h.mem t).mp hm), h.nodup⟩⟩
  by_cases hut : u = t
  · subst hut
    simp [hg]
  · simp [hut, h.mem u]

theorem drop (h : Tracks L γ P) (hg : ¬ P g) : Tracks (L.erase t) (Function.update γ t g) P := by
  refine ⟨fun u => ?_, h.nodup.erase t⟩
  rw [h.nodup.mem_erase_iff]
  by_cases hut : u = t
  · subst hut
    simp [hg]
  · simp [hut, h.mem u]

end Tracks

namespace Prog

/-- The proof obligation of thread `t` for the rest of its call; `keep` says how its ghost moves. -/
def wp (P : Outline T σ ε G) (t : T) (keep : G → G → Prop) :
    {α : Type} → Prog σ ε α → (α → G → Prop) → G → Prop
  | _, .ret a, Q, g => P.lab none g ∧ Q a g
  | _, .act e f k, Q, g => P.lab (some e) g ∧ ∀ s γ, P.Pre t e g s γ →
      P.claim t e s ∧ ∀ c s' b, f s c = some (s', b) →
        ∃ g', keep g g' ∧ P.inv s' (Function.update γ t g') ∧ wp P t keep (k b) Q g'
  | _, @Prog.iter _ _ _ _ ι body i k, Q, g => P.lab none g ∧
      ∃ J : ι → G → Prop, J i g ∧ ∀ j h, J j h →
        wp P t keep (body j) (fun r h' =>
          P.lab none h' ∧ Sum.elim (fun j' => J j' h') (fun b => wp P t keep (k b) Q h') r) h

variable {P : Outline T σ ε G} {t : T} {keep : G → G → Prop}

theorem wp_lab {p : Prog σ ε α} {Q : α → G → Prop} {g : G} (h : wp P t keep p Q g) :
    P.lab p.next g := by
  cases p <;> exact h.1

theorem wp_mono {p : Prog σ ε α} {Q Q' : α → G → Prop} {g : G} (h : wp P t keep p Q g)
    (hQ : ∀ a g', P.lab none g' → Q a g' → Q' a g') : wp P t keep p Q' g := by
  induction p generalizing g with
  | ret a => exact ⟨h.1, hQ a g h.1 h.2⟩
  | act e f k ih =>
    refine ⟨h.1, fun s γ hpre => ⟨(h.2 s γ hpre).1, fun c s' b hf => ?_⟩⟩
    obtain ⟨g', hk, hi, hw⟩ := (h.2 s γ hpre).2 c s' b hf
    exact ⟨g', hk, hi, ih b hw hQ⟩
  | iter body i k ihb ihk =>
    obtain ⟨hl, J, hJ, hbody⟩ := h
    refine ⟨hl, J, hJ, fun j h' hj => ihb j (hbody j h' hj) ?_⟩
    rintro (j' | b) g' _ ⟨hl', hr⟩
    · exact ⟨hl', hr⟩
    · exact ⟨hl', ihk b hr hQ⟩

/-- Sequencing: the first part has to establish what the rest needs. -/
theorem wp_bind {p : Prog σ ε α} {k : α → Prog σ ε β} {Q : β → G → Prop} {g : G}
    (h : wp P t keep p (fun a g' => wp P t keep (k a) Q g') g) : wp P t keep (p.bind k) Q g := by
  induction p generalizing g with
  | ret a => exact h.2
  | act e f k' ih =>
    refine ⟨h.1, fun s γ hpre => ⟨(h.2 s γ hpre).1, fun c s' b hf => ?_⟩⟩
    obtain ⟨g', hk, hi, hw⟩ := (h.2 s γ hpre).2 c s' b hf
    exact ⟨g', hk, hi, ih b hw⟩
  | iter body i k' _ ihk =>
    obtain ⟨hl, J, hJ, hbody⟩ := h
    refine ⟨hl, J, hJ, fun j h' hj => wp_mono (hbody j h' hj) ?_⟩
    rintro (j' | b) g' _ ⟨hl', hr⟩
    · exact ⟨hl', hr⟩
    · exact ⟨hl', ihk b hr⟩

/-- A loop with the invariant `J`. -/
theorem wp_loop {body : ι → Prog σ ε (ι ⊕ β)} {i : ι} {Q : β → G → Prop} {g : G}
    (J : ι → G → Prop) (hl : P.lab none g) (hJ : J i g)
    (hbody : ∀ j h, J j h →
      wp P t keep (body j) (fun r h' => Sum.elim (fun j' => J j' h') (fun b => Q b h') r) h) :
    wp P t keep (loop body i) Q g := by
  refine ⟨hl, J, hJ, fun j h hj => wp_mono (hbody j h hj) ?_⟩
  rintro (j' | b) g' hl' hr
  · exact ⟨hl', hr⟩
  · exact ⟨hl', hl', hr⟩

/-- Unfolding a loop keeps the obligation. -/
theorem wp_unfold {body : ι → Prog σ ε (ι ⊕ β)} {i : ι} {k : β → Prog σ ε α} {Q : α → G → Prop}
    {g : G} (h : wp P t keep (.iter body i k) Q g) :
    wp P t keep ((body i).bind (again body k)) Q g := by
  obtain ⟨_, J, hJ, hbody⟩ := h
  refine wp_bind (wp_mono (hbody i g hJ) ?_)
  rintro (j' | b) g' _ ⟨hl', hr⟩
  · exact ⟨hl', J, hr, hbody⟩
  · exact hr

/-! ### Single steps -/

/-- A step that leaves the memory alone: what it learns may be used, the ghost may move. -/
theorem wp_read {e : ε} {p : Place σ α} {Q : α → G → Prop} {g : G} (hl : P.lab (some e) g)
    (h : ∀ s γ, P.Pre t e g s γ → P.claim t e s ∧ P.Next t keep Q g γ s (p.get s)) :
    wp P t keep (loadAt e p) Q g := by
  refine ⟨hl, fun s γ hpre => ⟨(h s γ hpre).1, fun c s' b hf => ?_⟩⟩
  cases hf
  exact (h s γ hpre).2

/-- A load that leaves the ghost alone: its value is as the invariant says. -/
theorem wp_learn {e : ε} {p : Place σ α} {Q : α → G → Prop} {g : G} (hl : P.lab (some e) g)
    (hn : P.lab none g) (hk : keep g g)
    (h : ∀ s γ, P.Pre t e g s γ → P.claim t e s ∧ Q (p.get s) g) :
    wp P t keep (loadAt e p) Q g :=
  wp_read hl fun s γ hpre =>
    ⟨(h s γ hpre).1, g, hk, by rw [hpre.update]; exact hpre.inv, hn, (h s γ hpre).2⟩

/-- A read-modify-write step. -/
theorem wp_rmw {e : ε} {p : Place σ α} {f : α → α × β} {Q : β → G → Prop} {g : G}
    (hl : P.lab (some e) g)
    (h : ∀ s γ, P.Pre t e g s γ → P.claim t e s ∧
      P.Next t keep Q g γ (p.set (f (p.get s)).1 s) (f (p.get s)).2) :
    wp P t keep (rmwAt e p f) Q g := by
  refine ⟨hl, fun s γ hpre => ⟨(h s γ hpre).1, fun c s' b hf => ?_⟩⟩
  cases hf
  exact (h s γ hpre).2

theorem wp_store {e : ε} {p : Place σ α} {v : α} {Q : Unit → G → Prop} {g : G}
    (hl : P.lab (some e) g)
    (h : ∀ s γ, P.Pre t e g s γ → P.claim t e s ∧ P.Next t keep Q g γ (p.set v s) ()) :
    wp P t keep (storeAt e p v) Q g := by
  refine ⟨hl, fun s γ hpre => ⟨(h s γ hpre).1, fun c s' b hf => ?_⟩⟩
  cases hf
  exact (h s γ hpre).2

/-- A weak compare-and-swap: it may fail in any state. -/
theorem wp_casWeak [DecidableEq α] {e : ε} {p : Place σ α} {x v : α} {Q : Bool × α → G → Prop}
    {g : G} (hl : P.lab (some e) g)
    (h : ∀ s γ, P.Pre t e g s γ → P.claim t e s ∧
      (p.get s = x → P.Next t keep Q g γ (p.set v s) (true, x)) ∧
      P.Next t keep Q g γ s (false, p.get s)) :
    wp P t keep (casWeakAt e p x v) Q g := by
  refine ⟨hl, fun s γ hpre => ⟨(h s γ hpre).1, fun c s' b hf => ?_⟩⟩
  dsimp only at hf
  split at hf <;> cases hf
  · rename_i hc
    exact (h s γ hpre).2.1 hc.1
  · exact (h s γ hpre).2.2

/-- A strong compare-and-swap. -/
theorem wp_cas [DecidableEq α] {e : ε} {p : Place σ α} {x v : α} {Q : Bool × α → G → Prop}
    {g : G} (hl : P.lab (some e) g)
    (h : ∀ s γ, P.Pre t e g s γ → P.claim t e s ∧
      (p.get s = x → P.Next t keep Q g γ (p.set v s) (true, x)) ∧
      (p.get s ≠ x → P.Next t keep Q g γ s (false, p.get s))) :
    wp P t keep (casAt e p x v) Q g := by
  refine ⟨hl, fun s γ hpre => ⟨(h s γ hpre).1, fun c s' b hf => ?_⟩⟩
  dsimp only at hf
  split at hf <;> cases hf
  · exact (h s γ hpre).2.1 ‹_›
  · exact (h s γ hpre).2.2 ‹_›

/-! ### Programs that do not matter -/

/-- Every step of the program carries a label in `N` and moves the memory along `R`. -/
def Quiet (R : σ → σ → Prop) (N : ε → Prop) : {α : Type} → Prog σ ε α → Prop
  | _, .ret _ => True
  | _, .act e f k => N e ∧ (∀ s c s' b, f s c = some (s', b) → R s s') ∧ ∀ b, Quiet R N (k b)
  | _, .iter body _ k => (∀ j, Quiet R N (body j)) ∧ ∀ b, Quiet R N (k b)

variable {R R' : σ → σ → Prop} {N N' : ε → Prop}

theorem Quiet.mono {p : Prog σ ε α} (h : Quiet R N p) (hR : ∀ s s', R s s' → R' s s')
    (hN : ∀ e, N e → N' e) : Quiet R' N' p := by
  induction p with
  | ret a => trivial
  | act e f k ih =>
    exact ⟨hN e h.1, fun s c s' b hf => hR s s' (h.2.1 s c s' b hf), fun b => ih b (h.2.2 b)⟩
  | iter body i k ihb ihk => exact ⟨fun j => ihb j (h.1 j), fun b => ihk b (h.2 b)⟩

theorem Quiet.bind {p : Prog σ ε α} {k : α → Prog σ ε β} (hp : Quiet R N p)
    (hk : ∀ a, Quiet R N (k a)) : Quiet R N (p.bind k) := by
  induction p with
  | ret a => exact hk a
  | act e f k' ih => exact ⟨hp.1, hp.2.1, fun b => ih b (hp.2.2 b) hk⟩
  | iter body i k' _ ihk => exact ⟨hp.1, fun b => ihk b (hp.2 b) hk⟩

theorem Quiet.loop {body : ι → Prog σ ε (ι ⊕ β)} {i : ι} (h : ∀ j, Quiet R N (body j)) :
    Quiet R N (loop body i) :=
  ⟨h, fun _ => trivial⟩

/-- A property of programs that the control structures keep. -/
structure Closed (S : (α : Type) → Prog σ ε α → Prop) : Prop where
  ret : ∀ {α : Type} (a : α), S α (.ret a)
  bind : ∀ {α β : Type} {p : Prog σ ε α} {k : α → Prog σ ε β}, S α p → (∀ a, S β (k a)) →
    S β (p.bind k)
  loop : ∀ {β ι : Type} {body : ι → Prog σ ε (ι ⊕ β)} {i : ι}, (∀ j, S (ι ⊕ β) (body j)) →
    S β (loop body i)

theorem Closed.ite {S : (α : Type) → Prog σ ε α → Prop} (_h : Closed S) {c : Prop} [Decidable c]
    {p q : Prog σ ε α} (hp : S α p) (hq : S α q) : S α (if c then p else q) := by
  split
  · exact hp
  · exact hq

theorem Quiet.closed (R : σ → σ → Prop) (N : ε → Prop) :
    Closed (σ := σ) (ε := ε) fun _ p => Quiet R N p :=
  ⟨fun _ => trivial, .bind, .loop⟩

/-- The rest of a quiet program is quiet. -/
theorem Quiet.steps {p q : Prog σ ε α} {s s' : σ} (hp : Quiet R N p) (h : Steps p s q s') :
    Quiet R N q := by
  induction h with
  | refl p s => exact hp
  | act _ _ ih => exact ih (hp.2.2 _)
  | iter _ ih =>
    refine ih (Quiet.bind (hp.1 _) fun r => ?_)
    cases r with
    | inl j => exact hp
    | inr b => exact hp.2 b

theorem Quiet.ite {c : Prop} [Decidable c] {p q : Prog σ ε α} (hp : Quiet R N p)
    (hq : Quiet R N q) : Quiet R N (if c then p else q) := by
  split
  · exact hp
  · exact hq

theorem Quiet.read {e : ε} {p : Place σ α} (he : N e) (hR : ∀ s, R s s) :
    Quiet R N (loadAt e p) :=
  ⟨he, fun s _ s' b hf => by cases hf; exact hR s, fun _ => trivial⟩

theorem Quiet.write {e : ε} {p : Place σ α} {v : α} (he : N e) (hR : ∀ s, R s (p.set v s)) :
    Quiet R N (storeAt e p v) :=
  ⟨he, fun s _ s' b hf => by cases hf; exact hR s, fun _ => trivial⟩

theorem Quiet.rmw {e : ε} {p : Place σ α} {f : α → α × β} (he : N e)
    (hR : ∀ s v, R s (p.set v s)) : Quiet R N (rmwAt e p f) :=
  ⟨he, fun s _ s' b hf => by cases hf; exact hR s _, fun _ => trivial⟩

theorem Quiet.casWeak [DecidableEq α] {e : ε} {p : Place σ α} {x v : α} (he : N e)
    (hR : ∀ s, R s s) (hw : ∀ s, R s (p.set v s)) : Quiet R N (casWeakAt e p x v) := by
  refine ⟨he, fun s c s' b hf => ?_, fun _ => trivial⟩
  dsimp only at hf
  split at hf <;> cases hf
  · exact hw s
  · exact hR s

theorem Quiet.cas [DecidableEq α] {e : ε} {p : Place σ α} {x v : α} (he : N e)
    (hR : ∀ s, R s s) (hw : ∀ s, p.get s = x → R s (p.set v s)) : Quiet R N (casAt e p x v) := by
  refine ⟨he, fun s c s' b hf => ?_, fun _ => trivial⟩
  dsimp only at hf
  split at hf <;> cases hf
  · exact hw s ‹_›
  · exact hR s

theorem Quiet.within {τ ε' : Type} {P : Place τ σ} {e' : ε'} {R' : τ → τ → Prop} {N' : ε' → Prop}
    {p : Prog σ ε α} (h : Quiet R N p) (he : N' e') (hR : ∀ s m, R (P.get s) m → R' s (P.set m s)) :
    Quiet R' N' (p.within P e') := by
  induction p with
  | ret a => trivial
  | act e f k ih =>
    refine ⟨he, fun s c s' b hf => ?_, fun b => ih b (h.2.2 b)⟩
    obtain ⟨⟨m, b'⟩, hm, hs⟩ := Option.map_eq_some_iff.mp hf
    cases hs
    exact hR s m (h.2.1 _ c m _ hm)
  | iter body i k ihb ihk => exact ⟨fun j => ihb j (h.1 j), fun b => ihk b (h.2 b)⟩

/-- A quiet program runs under the outline with its ghost unmoved. -/
theorem Quiet.wp {p : Prog σ ε α} {g : G} (h : Quiet R N p) (hs : P.Stable t keep R N g) :
    wp P t keep p (fun _ g' => g' = g) g := by
  induction p with
  | ret a => exact ⟨hs.rest, rfl⟩
  | act e f k ih =>
    refine ⟨hs.lab e h.1, fun s γ hpre => ⟨hs.claim e s h.1, fun c s' b hf => ?_⟩⟩
    refine ⟨g, hs.keep, ?_, ih b (h.2.2 b)⟩
    rw [hpre.update]
    exact hs.inv s s' γ hpre.own (h.2.1 s c s' b hf) hpre.inv
  | iter body i k ihb ihk =>
    refine ⟨hs.rest, fun _ h' => h' = g, rfl, ?_⟩
    rintro j _ rfl
    refine wp_mono (ihb j (h.1 j)) ?_
    rintro (j' | b) g' hl' rfl
    · exact ⟨hl', rfl⟩
    · exact ⟨hl', ihk b (h.2 b)⟩

/-- A quiet program in front of the interesting part. -/
theorem Quiet.wp_bind {p : Prog σ ε α} {k : α → Prog σ ε β} {Q : β → G → Prop} {g : G}
    (h : Quiet R N p) (hs : P.Stable t keep R N g) (hk : ∀ a, Prog.wp P t keep (k a) Q g) :
    Prog.wp P t keep (p.bind k) Q g := by
  refine Prog.wp_bind (wp_mono (h.wp hs) ?_)
  rintro a _ - rfl
  exact hk a

/-! ### What a step may do -/

/-- Every step labelled `e` moves the memory along `R e`. -/
def Obeys (R : ε → σ → σ → Prop) : {α : Type} → Prog σ ε α → Prop
  | _, .ret _ => True
  | _, .act e f k => (∀ s c s' b, f s c = some (s', b) → R e s s') ∧ ∀ b, Obeys R (k b)
  | _, .iter body _ k => (∀ j, Obeys R (body j)) ∧ ∀ b, Obeys R (k b)

section

variable {R : ε → σ → σ → Prop} {R' : σ → σ → Prop}

theorem Obeys.mono {R₁ : ε → σ → σ → Prop} {p : Prog σ ε α} (h : Obeys R p)
    (hR : ∀ e s s', R e s s' → R₁ e s s') : Obeys R₁ p := by
  induction p with
  | ret a => trivial
  | act e f k ih => exact ⟨fun s c s' b hf => hR e s s' (h.1 s c s' b hf), fun b => ih b (h.2 b)⟩
  | iter body i k ihb ihk => exact ⟨fun j => ihb j (h.1 j), fun b => ihk b (h.2 b)⟩

theorem Quiet.obeys {p : Prog σ ε α} (h : Quiet R' N p) (hR : ∀ e s s', N e → R' s s' → R e s s') :
    Obeys R p := by
  induction p with
  | ret a => trivial
  | act e f k ih => exact ⟨fun s c s' b hf => hR e s s' h.1 (h.2.1 s c s' b hf), fun b => ih b (h.2.2 b)⟩
  | iter body i k ihb ihk => exact ⟨fun j => ihb j (h.1 j), fun b => ihk b (h.2 b)⟩

theorem Obeys.bind {p : Prog σ ε α} {k : α → Prog σ ε β} (hp : Obeys R p)
    (hk : ∀ a, Obeys R (k a)) : Obeys R (p.bind k) := by
  induction p with
  | ret a => exact hk a
  | act e f k' ih => exact ⟨hp.1, fun b => ih b (hp.2 b) hk⟩
  | iter body i k' _ ihk => exact ⟨hp.1, fun b => ihk b (hp.2 b) hk⟩

theorem Obeys.loop {body : ι → Prog σ ε (ι ⊕ β)} {i : ι} (h : ∀ j, Obeys R (body j)) :
    Obeys R (loop body i) :=
  ⟨h, fun _ => trivial⟩

theorem Obeys.unfold {body : ι → Prog σ ε (ι ⊕ β)} {i : ι} {k : β → Prog σ ε α}
    (h : Obeys R (.iter body i k)) : Obeys R ((body i).bind (again body k)) :=
  Obeys.bind (h.1 i) fun r => by
    cases r with
    | inl j => exact h
    | inr b => exact h.2 b

theorem Obeys.ite {c : Prop} [Decidable c] {p q : Prog σ ε α} (hp : Obeys R p)
    (hq : Obeys R q) : Obeys R (if c then p else q) := by
  split
  · exact hp
  · exact hq

theorem Obeys.write {e : ε} {p : Place σ α} {v : α} (hR : ∀ s, R e s (p.set v s)) :
    Obeys R (storeAt e p v) :=
  ⟨fun s _ s' b hf => by cases hf; exact hR s, fun _ => trivial⟩

end

end Prog

end Conc
