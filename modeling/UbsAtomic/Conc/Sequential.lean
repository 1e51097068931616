import UbsAtomic.Conc.Machine
import UbsAtomic.Conc.Trace

/-! Calls that run one at a time.

    A thread that runs alone is an outline with one thread, whose ghost is what it sees of the
    memory: `alone view`. All rules for outlines apply, and a place that `view` keeps can be read
    and written in the ghost itself, so that a call is executed symbolically.

        seq view p Q v      from a memory seen as v, every run of p ends with Q

    A history is a sequence of whole calls; between two of them stands a boundary. -/

namespace Conc

variable {T σ ε Op R H V α β ι : Type}

/-- One thread, whose ghost is its view of the memory. -/
def alone (view : σ → V) : Outline Unit σ ε V :=
  ⟨fun s γ => view s = γ (), fun _ _ => True, fun _ _ _ _ => True, fun _ _ _ => True⟩

namespace Prog

/-- From a memory seen as `v`, every run of `p` alone ends with `Q`. -/
abbrev seq (view : σ → V) (p : Prog σ ε α) (Q : α → V → Prop) (v : V) : Prop :=
  wp (alone view) () (fun _ _ => True) p Q v

variable {view : σ → V} {Q : α → V → Prop} {v : V}

/-- What is proved about runs alone is true of them. -/
theorem Run.sound {p : Prog σ ε α} {s s' : σ} {a : α} (hr : Run p s a s')
    (h : p.seq view Q (view s)) : Q a (view s') := by
  induction hr with
  | ret a s => exact h.2
  | @act _ e f k s s' s'' c b a hf _ ih =>
    have hpre : (alone view : Outline Unit σ ε V).Pre () e (view s) s fun _ => view s :=
      ⟨rfl, rfl, fun _ => none, fun _ => trivial, trivial⟩
    obtain ⟨g', -, hi, hw⟩ := (h.2 s _ hpre).2 c s' b hf
    have hg : view s' = g' := by
      have h' : view s' = Function.update (fun _ : Unit => view s) () g' () := hi
      rwa [Function.update_self] at h'
    rw [← hg] at hw
    exact ih hw
  | iter _ ih => exact ih (wp_unfold h)

/-- Steps that the view does not show. -/
theorem seq_stable {R : σ → σ → Prop} {N : ε → Prop} (hR : ∀ s s', R s s' → view s' = view s) :
    (alone view).Stable () (fun _ _ => True) R N v :=
  ⟨fun s s' _ _ hs hi => (hR s s' hs).trans hi, trivial, fun _ _ => trivial, fun _ _ _ => trivial,
    trivial⟩

section Places

variable {view : σ → σ} {v : σ}

/-- `view` keeps the place: reading and writing may as well happen in the view. -/
structure Seen (view : σ → σ) (p : Place σ α) : Prop where
  get : ∀ s, p.get (view s) = p.get s
  set : ∀ x s, view (p.set x s) = p.set x (view s)

variable {e : ε} {p : Place σ α}

theorem seq_load {Q : α → σ → Prop} (hp : Seen view p) (h : Q (p.get v) v) :
    (loadAt e p).seq view Q v := by
  refine wp_learn trivial trivial trivial fun s γ hpre => ⟨trivial, ?_⟩
  have hv : view s = v := hpre.inv.trans hpre.own
  rw [← hp.get, hv]
  exact h

/-- The view after the step is the next ghost. -/
theorem seq_next {Q : β → σ → Prop} {γ : Unit → σ} {s v' : σ} {b : β} (hs : view s = v')
    (h : Q b v') : (alone view : Outline Unit σ ε σ).Next () (fun _ _ => True) Q v γ s b :=
  ⟨v', trivial, hs.trans (Function.update_self () v' γ).symm, trivial, h⟩

theorem seq_store {x : α} {Q : Unit → σ → Prop} (hp : Seen view p) (h : Q () (p.set x v)) :
    (storeAt e p x).seq view Q v := by
  refine wp_store trivial fun s γ hpre => ⟨trivial, seq_next ?_ h⟩
  rw [hp.set, show view s = v from hpre.inv.trans hpre.own]

theorem seq_rmw {f : α → α × β} {Q : β → σ → Prop} (hp : Seen view p)
    (h : Q (f (p.get v)).2 (p.set (f (p.get v)).1 v)) : (rmwAt e p f).seq view Q v := by
  refine wp_rmw trivial fun s γ hpre => ?_
  have hv : view s = v := hpre.inv.trans hpre.own
  rw [← hp.get, hv]
  exact ⟨trivial, seq_next (by rw [hp.set, hv]) h⟩

theorem seq_cas [DecidableEq α] {x y : α} {Q : Bool × α → σ → Prop} (hp : Seen view p)
    (ht : p.get v = x → Q (true, x) (p.set y v)) (hf : p.get v ≠ x → Q (false, p.get v) v) :
    (casAt e p x y).seq view Q v := by
  refine wp_cas trivial fun s γ hpre => ?_
  have hv : view s = v := hpre.inv.trans hpre.own
  rw [← hp.get, hv]
  exact ⟨trivial, fun hx => seq_next (by rw [hp.set, hv]) (ht hx), fun hx => seq_next hv (hf hx)⟩

theorem seq_casWeak [DecidableEq α] {x y : α} {Q : Bool × α → σ → Prop} (hp : Seen view p)
    (ht : p.get v = x → Q (true, x) (p.set y v)) (hf : Q (false, p.get v) v) :
    (casWeakAt e p x y).seq view Q v := by
  refine wp_casWeak trivial fun s γ hpre => ?_
  have hv : view s = v := hpre.inv.trans hpre.own
  rw [← hp.get, hv]
  exact ⟨trivial, fun hx => seq_next (by rw [hp.set, hv]) (ht hx), seq_next hv hf⟩

end Places

/-! ### Calls that return -/

/-- Every run of the program alone whose choices are in `C` comes to an end, and ends with `Q`. -/
inductive Total (C : ℕ → Prop) (Q : α → σ → Prop) : Prog σ ε α → σ → Prop
  | ret {a : α} {s : σ} (h : Q a s) : Total C Q (.ret a) s
  | act {β : Type} {e : ε} {f : σ → ℕ → Option (σ × β)} {k : β → Prog σ ε α} {s : σ}
      (able : ∃ c, C c ∧ (f s c).isSome)
      (h : ∀ c s' b, C c → f s c = some (s', b) → Total C Q (k b) s') : Total C Q (.act e f k) s
  | iter {β ι : Type} {body : ι → Prog σ ε (ι ⊕ β)} {i : ι} {k : β → Prog σ ε α} {s : σ}
      (h : Total C Q ((body i).bind (again body k)) s) : Total C Q (.iter body i k) s

section Total

variable {C : ℕ → Prop} {Q : α → σ → Prop} {s s' : σ}

theorem Total.mono {Q' : α → σ → Prop} {p : Prog σ ε α} (h : Total C Q p s)
    (hQ : ∀ a s', Q a s' → Q' a s') : Total C Q' p s := by
  induction h with
  | ret h => exact .ret (hQ _ _ h)
  | act able _ ih => exact .act able ih
  | iter _ ih => exact .iter ih

theorem Total.bind {p : Prog σ ε β} {k : β → Prog σ ε α}
    (h : Total C (fun b s' => Total C Q (k b) s') p s) : Total C Q (p.bind k) s := by
  induction h with
  | ret h => exact h
  | act able _ ih => exact .act able ih
  | @iter γ ι body i k' s _ ih =>
    refine .iter ?_
    rwa [bind_again] at ih

theorem Total.and {Q' : α → σ → Prop} {p : Prog σ ε α} (h : Total C Q p s) (h' : Total C Q' p s) :
    Total C (fun a s' => Q a s' ∧ Q' a s') p s := by
  induction h with
  | ret h =>
    cases h' with
    | ret h' => exact .ret ⟨h, h'⟩
  | act able _ ih =>
    cases h' with
    | act _ h' => exact .act able fun c s' b hc hf => ih c s' b hc hf (h' c s' b hc hf)
  | iter _ ih =>
    cases h' with
    | iter h' => exact .iter (ih h')

/-- From every memory the program has one outcome. -/
def Determined (C : ℕ → Prop) (p : Prog σ ε α) : Prop :=
  ∀ s, ∃ a s', Total C (fun b t => b = a ∧ t = s') p s

theorem Determined.ret (a : α) : Determined C (.ret a : Prog σ ε α) := fun s =>
  ⟨a, s, .ret ⟨rfl, rfl⟩⟩

theorem Determined.bind {p : Prog σ ε β} {k : β → Prog σ ε α} (hp : Determined C p)
    (hk : ∀ b, Determined C (k b)) : Determined C (p.bind k) := by
  intro s
  obtain ⟨b, s₁, h₁⟩ := hp s
  obtain ⟨a, s', h'⟩ := hk b s₁
  refine ⟨a, s', .bind (h₁.mono ?_)⟩
  rintro _ _ ⟨rfl, rfl⟩
  exact h'

/-- The program has a run, and what is proved is true of all of them. -/
theorem Total.sound {p : Prog σ ε α} {a : α} (h : Total (fun _ => True) Q p s)
    (hr : Run p s a s') : Q a s' := by
  induction hr with
  | ret a s =>
    cases h with
    | ret h => exact h
  | act hf _ ih =>
    cases h with
    | act _ h => exact ih (h _ _ _ trivial hf)
  | iter _ ih =>
    cases h with
    | iter h => exact ih h

/-- A program that comes to an end does so with what is true of all its runs. -/
theorem Total.of_run {Q' : α → σ → Prop} {p : Prog σ ε α} (h : Total C Q p s)
    (hr : ∀ a s', Run p s a s' → Q' a s') : Total C Q' p s := by
  induction h with
  | ret _ => exact .ret (hr _ _ (.ret _ _))
  | act able _ ih => exact .act able fun c s' b hc hf => ih c s' b hc hf fun a s'' h => hr a s'' (.act hf h)
  | iter _ ih => exact .iter (ih fun a s' h => hr a s' (.iter h))

theorem Total.exists_run {p : Prog σ ε α} (h : Total C Q p s) : ∃ a s', Run p s a s' ∧ Q a s' := by
  induction h with
  | @ret a s h => exact ⟨a, s, .ret a s, h⟩
  | @act β e f k s able _ ih =>
    obtain ⟨c, hc, hsome⟩ := able
    obtain ⟨⟨s', b⟩, hf⟩ := Option.isSome_iff_exists.mp hsome
    obtain ⟨a, s'', hr, hq⟩ := ih c s' b hc hf
    exact ⟨a, s'', .act hf hr, hq⟩
  | iter _ ih =>
    obtain ⟨a, s', hr, hq⟩ := ih
    exact ⟨a, s', .iter hr, hq⟩

/-- A loop that is left the first time round. -/
theorem total_loop {body : ι → Prog σ ε (ι ⊕ α)} {i : ι}
    (h : Total C (fun r s' => Sum.elim (fun _ => False) (fun a => Q a s') r) (body i) s) :
    Total C Q (loop body i) s := by
  refine .iter (.bind (h.mono ?_))
  rintro (j | a) s' h'
  · exact h'.elim
  · exact .ret h'

/-- A loop whose rounds come to an end and lead downwards. -/
theorem total_loop_down {body : ι → Prog σ ε (ι ⊕ α)} (I : ι → σ → Prop) (μ : ι → σ → ℕ)
    (hbody : ∀ i s, I i s → Total C (fun _ _ => True) (body i) s)
    (hdown : ∀ i j s s', I i s → Run (body i) s (.inl j) s' → I j s' ∧ μ j s' < μ i s) {i : ι}
    (hi : I i s) : Total C (fun _ _ => True) (loop body i) s := by
  induction hm : μ i s using Nat.strong_induction_on generalizing i s with
  | _ m ih =>
    refine .iter (.bind ((hbody i s hi).of_run ?_))
    rintro (j | a) s' hr
    · obtain ⟨hj, hlt⟩ := hdown i j s s' hi hr
      exact ih _ (hm ▸ hlt) hj rfl
    · exact .ret trivial

variable {p : Place σ ι} {e : ε}

theorem total_choose {Q : ℕ → σ → Prop} (hC : C 0) (h : ∀ c, C c → Q c s) :
    Total C Q (chooseAt e) s :=
  .act ⟨0, hC, rfl⟩ fun c s' b hc hf => by
    cases hf
    exact .ret (h c hc)

theorem total_load {Q : ι → σ → Prop} (hC : C 0) (h : Q (p.get s) s) : Total C Q (loadAt e p) s :=
  .act ⟨0, hC, rfl⟩ fun c s' b _ hf => by
    cases hf
    exact .ret h

theorem total_rmw {f : ι → ι × β} {Q : β → σ → Prop} (hC : C 0)
    (h : Q (f (p.get s)).2 (p.set (f (p.get s)).1 s)) : Total C Q (rmwAt e p f) s :=
  .act ⟨0, hC, rfl⟩ fun c s' b _ hf => by
    cases hf
    exact .ret h

theorem total_store {x : ι} {Q : Unit → σ → Prop} (hC : C 0) (h : Q () (p.set x s)) :
    Total C Q (storeAt e p x) s :=
  .act ⟨0, hC, rfl⟩ fun c s' b _ hf => by
    cases hf
    exact .ret h

theorem Determined.store {x : ι} (hC : C 0) : Determined C (storeAt e p x : Prog σ ε Unit) := fun s =>
  ⟨(), p.set x s, total_store hC ⟨rfl, rfl⟩⟩

theorem total_cas [DecidableEq ι] {x y : ι} {Q : Bool × ι → σ → Prop} (hC : C 0)
    (ht : p.get s = x → Q (true, x) (p.set y s)) (hne : p.get s ≠ x → Q (false, p.get s) s) :
    Total C Q (casAt e p x y) s := by
  refine .act ⟨0, hC, ?_⟩ fun c s' b _ hf => ?_
  · split <;> rfl
  · split at hf
    · rename_i hx
      cases hf
      exact .ret (ht hx)
    · rename_i hx
      cases hf
      exact .ret (hne hx)

/-- A weak compare-and-swap that does not fail for no reason. -/
theorem total_casWeak [DecidableEq ι] {x y : ι} {Q : Bool × ι → σ → Prop}
    (ht : p.get s = x → Q (true, x) (p.set y s)) (hne : p.get s ≠ x → Q (false, p.get s) s) :
    Total (· = 0) Q (casWeakAt e p x y) s := by
  refine .act ⟨0, rfl, ?_⟩ fun c s' b hc hf => ?_
  · split <;> rfl
  · subst hc
    split at hf
    · rename_i hx
      cases hf
      exact .ret (ht hx.1)
    · rename_i hx
      cases hf
      exact .ret (hne fun he => hx ⟨he, rfl⟩)

end Total

/-! ### Taking a run apart -/

section Parts

variable {s s' : σ} {a : α} {e : ε} {p : Place σ ι}

theorem Run.load {k : ι → Prog σ ε α} (h : Run ((loadAt e p).bind k) s a s') :
    Run (k (p.get s)) s a s' := by
  cases h with
  | act hf h =>
    cases hf
    exact h

theorem Run.store {v : ι} {k : Unit → Prog σ ε α} (h : Run ((storeAt e p v).bind k) s a s') :
    Run (k ()) (p.set v s) a s' := by
  cases h with
  | act hf h =>
    cases hf
    exact h

theorem Run.rmw {f : ι → ι × β} {k : β → Prog σ ε α} (h : Run ((rmwAt e p f).bind k) s a s') :
    Run (k (f (p.get s)).2) (p.set (f (p.get s)).1 s) a s' := by
  cases h with
  | act hf h =>
    cases hf
    exact h

theorem Run.cas [DecidableEq ι] {x v : ι} {k : Bool × ι → Prog σ ε α}
    (h : Run ((casAt e p x v).bind k) s a s') :
    p.get s = x ∧ Run (k (true, x)) (p.set v s) a s' ∨
      p.get s ≠ x ∧ Run (k (false, p.get s)) s a s' := by
  cases h with
  | act hf h =>
    dsimp only at hf
    split_ifs at hf with hx
    · cases hf
      exact .inl ⟨hx, h⟩
    · cases hf
      exact .inr ⟨hx, h⟩

theorem Run.choose {k : ℕ → Prog σ ε α} (h : Run ((chooseAt e).bind k) s a s') :
    ∃ c, Run (k c) s a s' := by
  cases h with
  | act hf h =>
    cases hf
    exact ⟨_, h⟩

/-- A run of quiet steps is quiet. -/
theorem Run.quiet {R : σ → σ → Prop} {N : ε → Prop} (refl : ∀ s, R s s)
    (trans : ∀ {s₁ s₂ s₃}, R s₁ s₂ → R s₂ s₃ → R s₁ s₃) {p : Prog σ ε α} (h : Run p s a s')
    (hp : Quiet R N p) : R s s' := by
  induction h with
  | ret a s => exact refl s
  | act hf _ ih => exact trans (hp.2.1 _ _ _ _ hf) (ih (hp.2.2 _))
  | @iter _ _ body i k _ _ _ _ ih =>
    refine ih ((hp.1 i).bind fun r => ?_)
    cases r with
    | inl j => exact ⟨hp.1, hp.2⟩
    | inr b => exact hp.2 b

/-- What no step changes, the run does not change. -/
theorem Run.kept {κ : Type} {q : σ → κ} {N : ε → Prop} {p : Prog σ ε α} (h : Run p s a s')
    (hp : Quiet (fun s s' => q s' = q s) N p) : q s' = q s :=
  h.quiet (R := fun s s' => q s' = q s) (fun _ => rfl) (fun {_ _ _} h h' => Eq.trans h' h) hp

end Parts

/-- The undisturbed run is a run. -/
theorem run_of_exec {n : ℕ} {p : Prog σ ε α} {s s' : σ} {a : α} (h : exec n p s = some (a, s')) :
    Run p s a s' := by
  induction n generalizing α s with
  | zero => simp [exec] at h
  | succ n ih =>
    cases p with
    | ret b =>
      simp only [exec, Option.some.injEq, Prod.mk.injEq] at h
      obtain ⟨rfl, rfl⟩ := h
      exact .ret _ _
    | act e f k =>
      rw [exec] at h
      obtain ⟨⟨s₁, b⟩, hf, h⟩ := Option.bind_eq_some_iff.mp h
      exact .act hf (ih h)
    | iter body i k => exact .iter (ih h)

end Prog

/-! ### Histories -/

/-- The memory and the holdings between two calls. -/
structure Boundary (T σ H : Type) where
  mem : σ
  held : T → H

namespace Boundary

variable [DecidableEq T] (cl : Client T σ ε Op R H)

/-- The boundary after thread `t` has called `op`, got `r` and left the memory `s`. -/
def after (x : Boundary T σ H) (t : T) (op : Op) (r : R) (s : σ) : Boundary T σ H :=
  ⟨s, Function.update x.held t (cl.finish (cl.start (x.held t) op) op r)⟩

/-- A whole call leads from `x` to `y`. -/
def Calls (x : Boundary T σ H) (t : T) (op : Op) (r : R) (y : Boundary T σ H) : Prop :=
  cl.allowed t (x.held t) op = true ∧ ∃ s, (cl.code t op).Run x.mem r s ∧ y = x.after cl t op r s

/-- The boundaries of all histories whose calls meet `ok`. -/
inductive History (ok : Boundary T σ H → T → Op → R → Prop) (x₀ : Boundary T σ H) :
    Boundary T σ H → Prop
  | init : History ok x₀ x₀
  | call {x y : Boundary T σ H} {t : T} {op : Op} {r : R} (h : History ok x₀ x)
      (hok : ok x t op r) (hc : x.Calls cl t op r y) : History ok x₀ y

variable {cl} in
/-- What every call keeps holds at every boundary. -/
theorem History.invariant {ok : Boundary T σ H → T → Op → R → Prop} {x₀ x : Boundary T σ H}
    {J : Boundary T σ H → Prop} (h₀ : J x₀)
    (hJ : ∀ x t op r y, J x → ok x t op r → x.Calls cl t op r y → J y)
    (h : History cl ok x₀ x) : J x := by
  induction h with
  | init => exact h₀
  | call _ hok hc ih => exact hJ _ _ _ _ _ ih hok hc

variable {cl} in
theorem History.mono {ok ok' : Boundary T σ H → T → Op → R → Prop} {x₀ x : Boundary T σ H}
    (hok : ∀ x t op r, ok x t op r → ok' x t op r) (h : History cl ok x₀ x) :
    History cl ok' x₀ x := by
  induction h with
  | init => exact .init
  | call _ hc hcalls ih => exact ih.call (hok _ _ _ _ hc) hcalls

variable {cl} in
/-- Threads that make no call hold what they held. -/
theorem History.held_eq {ok : Boundary T σ H → T → Op → R → Prop} {x₀ x : Boundary T σ H} {t : T}
    (ht : ∀ x t' op r, ok x t' op r → t' ≠ t) (h : History cl ok x₀ x) : x.held t = x₀.held t := by
  refine h.invariant rfl (J := fun x => x.held t = x₀.held t) ?_
  rintro x t' op r _ hx hok ⟨-, s, -, rfl⟩
  exact (Function.update_of_ne (ht _ _ _ _ hok).symm _ _).trans hx

/-- Runs calls undisturbed, as long as they are allowed and meet the check. -/
def play (ok : Boundary T σ H → T → Op → R → Bool) :
    List (T × Op) → Boundary T σ H → Option (Boundary T σ H)
  | [], x => some x
  | (t, op) :: cs, x =>
    if cl.allowed t (x.held t) op then
      match (cl.code t op).exec 1000 x.mem with
      | some (r, s) => if ok x t op r then play ok cs (x.after cl t op r s) else none
      | none => none
    else none

variable {cl}

theorem History.play {ok : Boundary T σ H → T → Op → R → Prop}
    {check : Boundary T σ H → T → Op → R → Bool} (hok : ∀ x t op r, check x t op r = true → ok x t op r)
    {cs : List (T × Op)} {x₀ x y : Boundary T σ H} (h : History cl ok x₀ x)
    (hy : play cl check cs x = some y) : History cl ok x₀ y := by
  induction cs generalizing x with
  | nil =>
    cases hy
    exact h
  | cons c cs ih =>
    obtain ⟨t, op⟩ := c
    rw [Boundary.play] at hy
    split at hy
    · rename_i ha
      split at hy
      · rename_i r s hr
        split at hy
        · exact ih (h.call (hok _ _ _ _ ‹_›) ⟨ha, s, Prog.run_of_exec hr, rfl⟩) hy
        · cases hy
      · cases hy
    · cases hy

/-- Reading a property off the end of a list of calls. -/
theorem history_of_play (cl : Client T σ ε Op R H) (ok : Boundary T σ H → T → Op → R → Prop)
    [∀ x t op r, Decidable (ok x t op r)] (x₀ : Boundary T σ H) (cs : List (T × Op))
    (P : Boundary T σ H → Prop) [DecidablePred P]
    (h : (play cl (fun x t op r => decide (ok x t op r)) cs x₀).any P = true) :
    ∃ y, History cl ok x₀ y ∧ P y := by
  obtain ⟨y, hy, hp⟩ := (Option.any_eq_true _ _).mp h
  exact ⟨y, History.play (fun _ _ _ _ hd => of_decide_eq_true hd) .init hy, of_decide_eq_true hp⟩

end Boundary

end Conc
