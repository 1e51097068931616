import Mathlib.Algebra.BigOperators.Group.List.Basic
import Mathlib.Algebra.Order.Ring.Int
import UbsAtomic.Conc.Logic

/-! The own steps of a call, whatever happens between them.

        others      ~~~~~~~        ~~~~~~       ~~~~        the memory may change in any way
        the call  s₀ ──▶ s₀'    s₁ ──▶ s₁'   s₂ ──▶ s₂'     `Traced p [m₀, m₁, m₂] a`

    A trace lists what the steps of one call did, each from the memory it found. Weighing the steps
    and adding up (`cost`) says how often a call did something, in every interleaving. A call that
    nobody disturbs has a trace whose steps follow each other (`Linked`). -/

namespace Conc

/-- One atomic step of a call. -/
structure OwnStep (σ ε : Type) where
  label : ε
  before : σ
  after : σ

namespace Prog

variable {σ ε α β ι : Type}

inductive Traced : {α : Type} → Prog σ ε α → List (OwnStep σ ε) → α → Prop
  | ret {α : Type} (a : α) : Traced (.ret a) [] a
  | act {α β : Type} {e : ε} {f : σ → ℕ → Option (σ × β)} {k : β → Prog σ ε α} {s s' : σ} {c : ℕ}
      {b : β} {a : α} {t : List (OwnStep σ ε)} (hf : f s c = some (s', b)) (h : Traced (k b) t a) :
      Traced (.act e f k) (⟨e, s, s'⟩ :: t) a
  | iter {α β ι : Type} {body : ι → Prog σ ε (ι ⊕ β)} {i : ι} {k : β → Prog σ ε α} {a : α}
      {t : List (OwnStep σ ε)} (h : Traced ((body i).bind (again body k)) t a) :
      Traced (.iter body i k) t a

/-- Each step starts where the one before ended. -/
def Linked : σ → List (OwnStep σ ε) → σ → Prop
  | s, [], s' => s = s'
  | s, m :: t, s' => m.before = s ∧ Linked m.after t s'

/-- A trace of two programs in a row is a trace of each. -/
theorem Traced.of_bind {p : Prog σ ε β} {k : β → Prog σ ε α} {t : List (OwnStep σ ε)} {a : α}
    (h : Traced (p.bind k) t a) : ∃ t₁ t₂ b, t = t₁ ++ t₂ ∧ Traced p t₁ b ∧ Traced (k b) t₂ a := by
  generalize hq : p.bind k = q at h
  induction h generalizing p with
  | ret a =>
    cases p with
    | ret b =>
      have hk : k b = .ret a := hq
      exact ⟨[], [], b, rfl, .ret b, hk ▸ .ret a⟩
    | act e f k' => cases hq
    | iter body i k' => cases hq
  | @act _ e f k' _ _ _ _ _ _ hf h ih =>
    cases p with
    | ret b =>
      have hk : k b = .act e f k' := hq
      exact ⟨[], _, b, rfl, .ret b, hk ▸ .act hf h⟩
    | act e' f' k'' =>
      cases hq
      obtain ⟨t₁, t₂, b, rfl, h₁, h₂⟩ := ih rfl
      exact ⟨_ :: t₁, t₂, b, rfl, .act hf h₁, h₂⟩
    | iter body i k'' => cases hq
  | @iter _ _ body i k' _ _ h ih =>
    cases p with
    | ret b =>
      have hk : k b = .iter body i k' := hq
      exact ⟨[], _, b, rfl, .ret b, hk ▸ .iter h⟩
    | act e' f' k'' => cases hq
    | iter body' i' k'' =>
      cases hq
      obtain ⟨t₁, t₂, b, rfl, h₁, h₂⟩ := ih (bind_again _ _ _)
      exact ⟨t₁, t₂, b, rfl, .iter h₁, h₂⟩

theorem Traced.bind {p : Prog σ ε β} {k : β → Prog σ ε α} {t t' : List (OwnStep σ ε)} {b : β} {a : α}
    (h : Traced p t b) (hk : Traced (k b) t' a) : Traced (p.bind k) (t ++ t') a := by
  induction h with
  | ret b => exact hk
  | act hf _ ih => exact .act hf (ih hk)
  | iter _ ih =>
    have h := ih hk
    rw [bind_again] at h
    exact .iter h

/-- The rounds of a loop, one after the other. -/
inductive Rounds (body : ι → Prog σ ε (ι ⊕ β)) : ι → List (OwnStep σ ε) → β → Prop
  | last {i : ι} {t : List (OwnStep σ ε)} {b : β} (h : Traced (body i) t (.inr b)) : Rounds body i t b
  | more {i j : ι} {t t' : List (OwnStep σ ε)} {b : β} (h : Traced (body i) t (.inl j))
      (hr : Rounds body j t' b) : Rounds body i (t ++ t') b

/-- The rest of a round and the rounds after it. -/
theorem Traced.of_again {body : ι → Prog σ ε (ι ⊕ β)} {p : Prog σ ε (ι ⊕ β)} {t : List (OwnStep σ ε)}
    {b : β} (h : Traced (p.bind (again body .ret)) t b) :
    Traced p t (.inr b) ∨ ∃ j t₁ t₂, t = t₁ ++ t₂ ∧ Traced p t₁ (.inl j) ∧ Rounds body j t₂ b := by
  generalize hq : p.bind (again body .ret) = q at h
  induction h generalizing p with
  | ret b =>
    cases p with
    | ret r =>
      cases r with
      | inl j => cases hq
      | inr b =>
        cases hq
        exact .inl (.ret _)
    | act e f k => cases hq
    | iter body' i k => cases hq
  | act hf _ ih =>
    cases p with
    | ret r => cases r <;> cases hq
    | act e f k =>
      cases hq
      rcases ih rfl with h | ⟨j, t₁, t₂, rfl, h₁, h₂⟩
      · exact .inl (.act hf h)
      · exact .inr ⟨j, _ :: t₁, t₂, rfl, .act hf h₁, h₂⟩
    | iter body' i k => cases hq
  | iter h ih =>
    cases p with
    | ret r =>
      cases r with
      | inl j =>
        -- the round is over, the next one begins
        cases hq
        refine .inr ⟨j, [], _, rfl, .ret _, ?_⟩
        rcases ih rfl with h | ⟨j', t₁, t₂, rfl, h₁, h₂⟩
        · exact .last h
        · exact .more h₁ h₂
      | inr b => cases hq
    | act e f k => cases hq
    | iter body' i k =>
      cases hq
      rcases ih (bind_again _ _ _) with h | ⟨j, t₁, t₂, rfl, h₁, h₂⟩
      · exact .inl (.iter h)
      · exact .inr ⟨j, t₁, t₂, rfl, .iter h₁, h₂⟩

theorem traced_loop_iff {body : ι → Prog σ ε (ι ⊕ β)} {i : ι} {t : List (OwnStep σ ε)} {b : β} :
    Traced (Prog.loop body i) t b ↔ Rounds body i t b := by
  constructor
  · intro h
    cases h with
    | iter h =>
      rcases h.of_again with h | ⟨j, t₁, t₂, rfl, h₁, h₂⟩
      · exact .last h
      · exact .more h₁ h₂
  · intro h
    induction h with
    | last h =>
      have h := h.bind (k := again body .ret) (.ret _)
      rw [List.append_nil] at h
      exact .iter h
    | more h _ ih => exact .iter (h.bind ih)

theorem linked_append {t t' : List (OwnStep σ ε)} {s s' : σ} :
    Linked s (t ++ t') s' ↔ ∃ s₁, Linked s t s₁ ∧ Linked s₁ t' s' := by
  induction t generalizing s with
  | nil => simp [Linked]
  | cons m t ih => simp only [List.cons_append, Linked, ih, and_assoc, exists_and_left]

/-- The undisturbed runs are the linked traces. -/
theorem run_iff_traced {p : Prog σ ε α} {s s' : σ} {a : α} :
    Run p s a s' ↔ ∃ t, Traced p t a ∧ Linked s t s' := by
  constructor
  · intro h
    induction h with
    | ret a s => exact ⟨[], .ret a, rfl⟩
    | act hf _ ih =>
      obtain ⟨t, ht, hl⟩ := ih
      exact ⟨_ :: t, .act hf ht, rfl, hl⟩
    | iter _ ih =>
      obtain ⟨t, ht, hl⟩ := ih
      exact ⟨t, .iter ht, hl⟩
  · rintro ⟨t, ht, hl⟩
    induction ht generalizing s with
    | ret a =>
      obtain rfl := hl
      exact .ret a s
    | act hf _ ih =>
      obtain ⟨rfl, hl⟩ := hl
      exact .act hf (ih hl)
    | iter _ ih => exact .iter (ih hl)

/-- A run of two programs in a row is a run of each. -/
theorem Run.of_bind {p : Prog σ ε β} {k : β → Prog σ ε α} {s s' : σ} {a : α}
    (h : Run (p.bind k) s a s') : ∃ b s₁, Run p s b s₁ ∧ Run (k b) s₁ a s' := by
  obtain ⟨t, ht, hl⟩ := run_iff_traced.mp h
  obtain ⟨t₁, t₂, b, rfl, h₁, h₂⟩ := ht.of_bind
  obtain ⟨s₁, hl₁, hl₂⟩ := linked_append.mp hl
  exact ⟨b, s₁, run_iff_traced.mpr ⟨t₁, h₁, hl₁⟩, run_iff_traced.mpr ⟨t₂, h₂, hl₂⟩⟩

theorem Run.bind {p : Prog σ ε β} {k : β → Prog σ ε α} {s s₁ s' : σ} {b : β} {a : α}
    (h : Run p s b s₁) (hk : Run (k b) s₁ a s') : Run (p.bind k) s a s' := by
  obtain ⟨t, ht, hl⟩ := run_iff_traced.mp h
  obtain ⟨t', ht', hl'⟩ := run_iff_traced.mp hk
  exact run_iff_traced.mpr ⟨t ++ t', ht.bind ht', linked_append.mpr ⟨s₁, hl, hl'⟩⟩

/-- What every round keeps, and what the last one leads to. -/
theorem Run.loop_inv {body : ι → Prog σ ε (ι ⊕ β)} (I : ι → σ → Prop) {Q : β → σ → Prop}
    (hmore : ∀ i j s s', I i s → Run (body i) s (.inl j) s' → I j s')
    (hlast : ∀ i b s s', I i s → Run (body i) s (.inr b) s' → Q b s') {i : ι} {s s' : σ} {b : β}
    (hi : I i s) (h : Run (Prog.loop body i) s b s') : Q b s' := by
  obtain ⟨t, ht, hl⟩ := run_iff_traced.mp h
  rw [traced_loop_iff] at ht
  clear h
  induction ht generalizing s with
  | last h => exact hlast _ _ _ _ hi (run_iff_traced.mpr ⟨_, h, hl⟩)
  | more h _ ih =>
    obtain ⟨s₁, hl₁, hl₂⟩ := linked_append.mp hl
    exact ih (hmore _ _ _ _ hi (run_iff_traced.mpr ⟨_, h, hl₁⟩)) hl₂

/-- A run together with the steps it took. -/
structure Path (p : Prog σ ε α) (s : σ) (t : List (OwnStep σ ε)) (a : α) (s' : σ) : Prop where
  traced : Traced p t a
  linked : Linked s t s'

section Path

variable {s s' : σ} {t : List (OwnStep σ ε)} {a : α}

theorem Path.run {p : Prog σ ε α} (h : Path p s t a s') : Run p s a s' :=
  run_iff_traced.mpr ⟨t, h.traced, h.linked⟩

theorem Run.path {p : Prog σ ε α} (h : Run p s a s') : ∃ t, Path p s t a s' := by
  obtain ⟨t, ht, hl⟩ := run_iff_traced.mp h
  exact ⟨t, ht, hl⟩

theorem Path.of_ret {b : α} (h : Path (Prog.ret b : Prog σ ε α) s t a s') : t = [] ∧ a = b ∧ s = s' := by
  obtain ⟨ht, hl⟩ := h
  cases ht
  exact ⟨rfl, rfl, hl⟩

theorem Path.of_bind {p : Prog σ ε β} {k : β → Prog σ ε α} (h : Path (p.bind k) s t a s') :
    ∃ t₁ t₂ b s₁, t = t₁ ++ t₂ ∧ Path p s t₁ b s₁ ∧ Path (k b) s₁ t₂ a s' := by
  obtain ⟨t₁, t₂, b, rfl, h₁, h₂⟩ := h.traced.of_bind
  obtain ⟨s₁, hl₁, hl₂⟩ := linked_append.mp h.linked
  exact ⟨t₁, t₂, b, s₁, rfl, ⟨h₁, hl₁⟩, ⟨h₂, hl₂⟩⟩

/-- The first round of a loop, and the rest. -/
theorem Path.of_loop {body : ι → Prog σ ε (ι ⊕ α)} {i : ι} (h : Path (Prog.loop body i) s t a s') :
    Path (body i) s t (.inr a) s' ∨ ∃ j t₁ t₂ s₁, t = t₁ ++ t₂ ∧ Path (body i) s t₁ (.inl j) s₁ ∧
      Path (Prog.loop body j) s₁ t₂ a s' := by
  cases traced_loop_iff.mp h.traced with
  | last hb => exact .inl ⟨hb, h.linked⟩
  | more hb hr =>
    obtain ⟨s₁, hl₁, hl₂⟩ := linked_append.mp h.linked
    exact .inr ⟨_, _, _, s₁, rfl, ⟨hb, hl₁⟩, ⟨traced_loop_iff.mpr hr, hl₂⟩⟩

/-- The labels of quiet steps, and what the steps do to the memory. -/
theorem Quiet.traced {R : σ → σ → Prop} {N : ε → Prop} {p : Prog σ ε α} (hp : Quiet R N p)
    (h : Traced p t a) : ∀ m ∈ t, N m.label ∧ R m.before m.after := by
  induction h with
  | ret a => simp
  | act hf _ ih =>
    intro m hm
    rcases List.mem_cons.mp hm with rfl | hm
    · exact ⟨hp.1, hp.2.1 _ _ _ _ hf⟩
    · exact ih (hp.2.2 _) m hm
  | @iter _ _ body i k _ _ _ ih =>
    refine ih ((hp.1 i).bind fun r => ?_)
    cases r with
    | inl j => exact ⟨hp.1, hp.2⟩
    | inr b => exact hp.2 b

theorem Quiet.labels {R : σ → σ → Prop} {N : ε → Prop} {p : Prog σ ε α} (hp : Quiet R N p)
    (h : Traced p t a) : ∀ m ∈ t, N m.label :=
  fun m hm => (hp.traced h m hm).1

theorem Quiet.moves {R : σ → σ → Prop} {N : ε → Prop} {p : Prog σ ε α} (hp : Quiet R N p)
    (h : Traced p t a) : ∀ m ∈ t, R m.before m.after :=
  fun m hm => (hp.traced h m hm).2

end Path

/-! ### Calls under way -/

/-- The call has made the steps `t`, and `q` is what is left of it. -/
inductive Begun : {α : Type} → Prog σ ε α → List (OwnStep σ ε) → Prog σ ε α → Prop
  | refl {α : Type} (p : Prog σ ε α) : Begun p [] p
  | act {α β : Type} {e : ε} {f : σ → ℕ → Option (σ × β)} {k : β → Prog σ ε α} {s s' : σ} {c : ℕ}
      {b : β} {q : Prog σ ε α} {t : List (OwnStep σ ε)} (hf : f s c = some (s', b))
      (h : Begun (k b) t q) : Begun (.act e f k) (⟨e, s, s'⟩ :: t) q
  | iter {α β ι : Type} {body : ι → Prog σ ε (ι ⊕ β)} {i : ι} {k : β → Prog σ ε α}
      {q : Prog σ ε α} {t : List (OwnStep σ ε)} (h : Begun ((body i).bind (again body k)) t q) :
      Begun (.iter body i k) t q

section Begun

variable {t t' : List (OwnStep σ ε)} {p q : Prog σ ε α} {a : α}

theorem Begun.of_ret (h : Begun (Prog.ret a : Prog σ ε α) t q) : t = [] := by
  cases h
  rfl

/-- A call under way is in its first part, or has completed it. -/
theorem Begun.of_bind {p : Prog σ ε β} {k : β → Prog σ ε α} (h : Begun (p.bind k) t q) :
    (∃ q', Begun p t q') ∨
      ∃ t₁ t₂ b, t = t₁ ++ t₂ ∧ Traced p t₁ b ∧ Begun (k b) t₂ q := by
  generalize hr : p.bind k = r at h
  induction h generalizing p with
  | refl r => exact .inl ⟨p, .refl p⟩
  | @act _ e f k' _ _ _ _ _ _ hf h ih =>
    cases p with
    | ret b =>
      have hk : k b = .act e f k' := hr
      exact .inr ⟨[], _, b, rfl, .ret b, hk ▸ .act hf h⟩
    | act e' f' k'' =>
      cases hr
      rcases ih rfl with ⟨q', h'⟩ | ⟨t₁, t₂, b, rfl, h₁, h₂⟩
      · exact .inl ⟨q', .act hf h'⟩
      · exact .inr ⟨_ :: t₁, t₂, b, rfl, .act hf h₁, h₂⟩
    | iter body i k'' => cases hr
  | @iter _ _ body i k' _ _ h ih =>
    cases p with
    | ret b =>
      have hk : k b = .iter body i k' := hr
      exact .inr ⟨[], _, b, rfl, .ret b, hk ▸ .iter h⟩
    | act e' f' k'' => cases hr
    | iter body' i' k'' =>
      cases hr
      rcases ih (bind_again _ _ _) with ⟨q', h'⟩ | ⟨t₁, t₂, b, rfl, h₁, h₂⟩
      · exact .inl ⟨q', .iter h'⟩
      · exact .inr ⟨t₁, t₂, b, rfl, .iter h₁, h₂⟩

/-- The first part of a call is under way. -/
theorem Begun.bind {p q : Prog σ ε β} (h : Begun p t q) (k : β → Prog σ ε α) :
    Begun (p.bind k) t (q.bind k) := by
  induction h with
  | refl p => exact .refl _
  | act hf _ ih => exact .act hf ih
  | iter _ ih =>
    rw [bind_again] at ih
    exact .iter ih

theorem Traced.begun {p : Prog σ ε β} {k : β → Prog σ ε α} {b : β} (h : Traced p t b)
    (hk : Begun (k b) t' q) : Begun (p.bind k) (t ++ t') q := by
  induction h with
  | ret b => exact hk
  | act hf _ ih => exact .act hf (ih hk)
  | iter _ ih =>
    have h := ih hk
    rw [bind_again] at h
    exact .iter h

/-- What the steps so far did to the memory. -/
theorem Obeys.begun {R : ε → σ → σ → Prop} (hp : Obeys R p) (h : Begun p t q) :
    ∀ m ∈ t, R m.label m.before m.after := by
  induction h with
  | refl p => simp
  | act hf _ ih =>
    intro m hm
    rcases List.mem_cons.mp hm with rfl | hm
    · exact hp.1 _ _ _ _ hf
    · exact ih (hp.2 _) m hm
  | iter _ ih => exact ih (Obeys.unfold hp)

theorem Traced.begun_ret (h : Traced p t a) : Begun p t (.ret a) := by
  induction h with
  | ret a => exact .refl _
  | act hf _ ih => exact .act hf ih
  | iter _ ih => exact .iter ih

end Begun

/-- The trace of the undisturbed run, with choice `0` at every step and at most `n` steps. -/
def trail : ℕ → {α : Type} → Prog σ ε α → σ → Option (List (OwnStep σ ε) × α)
  | 0, _, _, _ => none
  | _ + 1, _, .ret a, _ => some ([], a)
  | n + 1, _, .act e f k, s =>
    (f s 0).bind fun r => (trail n (k r.2) r.1).map fun x => (⟨e, s, r.1⟩ :: x.1, x.2)
  | n + 1, _, .iter body i k, s => trail n ((body i).bind (again body k)) s

theorem traced_of_trail {n : ℕ} {p : Prog σ ε α} {s : σ} {t : List (OwnStep σ ε)} {a : α}
    (h : trail n p s = some (t, a)) : Traced p t a := by
  induction n generalizing α s t with
  | zero => cases h
  | succ n ih =>
    cases p with
    | ret b =>
      cases h
      exact .ret _
    | act e f k =>
      rw [trail] at h
      obtain ⟨⟨s₁, b⟩, hf, h₁⟩ := Option.bind_eq_some_iff.mp h
      obtain ⟨⟨t', a'⟩, hrest, he⟩ := Option.map_eq_some_iff.mp h₁
      cases he
      exact .act hf (ih hrest)
    | iter body i k => exact .iter (ih h)

/-! ### Taking a trace apart -/

section Parts

variable {t : List (OwnStep σ ε)} {a : α} {e : ε} {p : Place σ ι}

theorem Traced.of_ret {b : α} (h : Traced (Prog.ret b : Prog σ ε α) t a) : t = [] ∧ a = b := by
  cases h
  exact ⟨rfl, rfl⟩

theorem Traced.load {k : ι → Prog σ ε α} (h : Traced ((loadAt e p).bind k) t a) :
    ∃ s t', t = ⟨e, s, s⟩ :: t' ∧ Traced (k (p.get s)) t' a := by
  cases h with
  | act hf h =>
    cases hf
    exact ⟨_, _, rfl, h⟩

theorem Traced.store {v : ι} {k : Unit → Prog σ ε α} (h : Traced ((storeAt e p v).bind k) t a) :
    ∃ s t', t = ⟨e, s, p.set v s⟩ :: t' ∧ Traced (k ()) t' a := by
  cases h with
  | act hf h =>
    cases hf
    exact ⟨_, _, rfl, h⟩

theorem Traced.rmw {f : ι → ι × β} {k : β → Prog σ ε α} (h : Traced ((rmwAt e p f).bind k) t a) :
    ∃ s t', t = ⟨e, s, p.set (f (p.get s)).1 s⟩ :: t' ∧ Traced (k (f (p.get s)).2) t' a := by
  cases h with
  | act hf h =>
    cases hf
    exact ⟨_, _, rfl, h⟩

theorem Traced.casWeak [DecidableEq ι] {x v : ι} {k : Bool × ι → Prog σ ε α}
    (h : Traced ((casWeakAt e p x v).bind k) t a) :
    ∃ s t', p.get s = x ∧ t = ⟨e, s, p.set v s⟩ :: t' ∧ Traced (k (true, x)) t' a ∨
      t = ⟨e, s, s⟩ :: t' ∧ Traced (k (false, p.get s)) t' a := by
  cases h with
  | act hf h =>
    dsimp only at hf
    split_ifs at hf with hx
    · cases hf
      exact ⟨_, _, .inl ⟨hx.1, rfl, h⟩⟩
    · cases hf
      exact ⟨_, _, .inr ⟨rfl, h⟩⟩

end Parts

/-- Every run of the one is a run of the other. -/
def Refines (p p' : Prog σ ε α) : Prop := ∀ s a s', Run p s a s' → Run p' s a s'

theorem Refines.bind {p p' : Prog σ ε β} {k k' : β → Prog σ ε α} (hp : Refines p p')
    (hk : ∀ b, Refines (k b) (k' b)) : Refines (p.bind k) (p'.bind k') := by
  intro s a s' h
  obtain ⟨b, s₁, h₁, h₂⟩ := h.of_bind
  exact (hp s b s₁ h₁).bind (hk b s₁ a s' h₂)

theorem Refines.loop {body body' : ι → Prog σ ε (ι ⊕ β)} (h : ∀ i, Refines (body i) (body' i))
    (i : ι) : Refines (Prog.loop body i) (Prog.loop body' i) := by
  intro s b s' hr
  obtain ⟨t, ht, hl⟩ := run_iff_traced.mp hr
  rw [traced_loop_iff] at ht
  clear hr
  induction ht generalizing s with
  | last hb =>
    have hb := h _ _ _ _ (run_iff_traced.mpr ⟨_, hb, hl⟩)
    exact .iter (hb.bind (.ret _ _))
  | more hb hr ih =>
    obtain ⟨s₁, hl₁, hl₂⟩ := linked_append.mp hl
    have hb := h _ _ _ _ (run_iff_traced.mpr ⟨_, hb, hl₁⟩)
    exact .iter (hb.bind (ih s₁ hl₂))

/-- Goes on only if `c` holds: among the runs of a call, those with a certain result. -/
def assuming (e : ε) (c : Prop) [Decidable c] : Prog σ ε Unit :=
  .act e (fun s _ => if c then some (s, ()) else none) .ret

theorem Run.assuming {e : ε} {c : Prop} [Decidable c] {s s' : σ} {k : Unit → Prog σ ε α} {a : α}
    (h : Run ((Prog.assuming e c).bind k) s a s') : c ∧ Run (k ()) s a s' := by
  cases h with
  | act hf h =>
    dsimp only at hf
    split_ifs at hf with hc
    cases hf
    exact ⟨hc, h⟩

/-- The undisturbed run that meets the choices `c i`, `c (i + 1)`, …, with at most `n` steps. -/
def execBy (c : ℕ → ℕ) : ℕ → ℕ → {α : Type} → Prog σ ε α → σ → Option (α × σ)
  | 0, _, _, _, _ => none
  | _ + 1, _, _, .ret a, s => some (a, s)
  | n + 1, i, _, .act _ f k, s => (f s (c i)).bind fun r => execBy c n (i + 1) (k r.2) r.1
  | n + 1, i, _, .iter body j k, s => execBy c n i ((body j).bind (again body k)) s

theorem run_of_execBy {c : ℕ → ℕ} {n i : ℕ} {p : Prog σ ε α} {s s' : σ} {a : α}
    (h : execBy c n i p s = some (a, s')) : Run p s a s' := by
  induction n generalizing i p s with
  | zero => cases h
  | succ n ih =>
    cases p with
    | ret b =>
      cases h
      exact .ret _ _
    | act e f k =>
      obtain ⟨r, hf, hr⟩ := Option.bind_eq_some_iff.mp h
      exact .act hf (ih hr)
    | iter body j k => exact .iter (ih h)

/-! ### Weighing the steps -/

/-- What the steps of a trace weigh together. -/
def cost (w : OwnStep σ ε → ℤ) (t : List (OwnStep σ ε)) : ℤ := (t.map w).sum

/-- Every trace of the call ends with a result and a cost that `Q` allows. -/
def Costs (w : OwnStep σ ε → ℤ) (Q : ℤ → α → Prop) (p : Prog σ ε α) : Prop :=
  ∀ t a, Traced p t a → Q (cost w t) a

section Cost

variable {w : OwnStep σ ε → ℤ} {Q : ℤ → α → Prop} {t t' : List (OwnStep σ ε)}

theorem cost_append : cost w (t ++ t') = cost w t + cost w t' := by
  simp [cost]

/-- A quantity of the memory: a linked trace moves it from its first value to its last. -/
theorem Linked.cost_sub {q : σ → ℤ} {s s' : σ} (h : Linked s t s') :
    cost (fun m => q m.after - q m.before) t = q s' - q s := by
  induction t generalizing s with
  | nil =>
    obtain rfl := h
    simp [cost]
  | cons m t ih =>
    obtain ⟨rfl, h⟩ := h
    have hsum := ih h
    simp only [cost, List.map_cons, List.sum_cons] at hsum ⊢
    omega

theorem Costs.ret {a : α} (h : Q 0 a) : Costs w Q (Prog.ret a : Prog σ ε α) := by
  intro t b ht
  cases ht
  exact h

theorem Costs.mono {Q' : ℤ → α → Prop} {p : Prog σ ε α} (h : Costs w Q' p)
    (hq : ∀ n a, Q' n a → Q n a) : Costs w Q p := fun t a ht => hq _ _ (h t a ht)

theorem Costs.bind {p : Prog σ ε β} {k : β → Prog σ ε α}
    (h : Costs w (fun n b => Costs w (fun n' a => Q (n + n') a) (k b)) p) : Costs w Q (p.bind k) := by
  intro t a ht
  obtain ⟨t₁, t₂, b, rfl, h₁, h₂⟩ := ht.of_bind
  rw [cost_append]
  exact h t₁ b h₁ t₂ a h₂

theorem cost_cons {m : OwnStep σ ε} : cost w (m :: t) = w m + cost w t := by
  simp [cost]

/-- A part whose steps weigh nothing. -/
theorem Quiet.costs {R : σ → σ → Prop} {N : ε → Prop} {p : Prog σ ε α} (hp : Quiet R N p)
    (hw : ∀ e s s', N e → R s s' → w ⟨e, s, s'⟩ = 0) : Costs w (fun n _ => n = 0) p := by
  intro t a ht
  induction ht with
  | ret a => rfl
  | act hf _ ih => rw [cost_cons, hw _ _ _ hp.1 (hp.2.1 _ _ _ _ hf), ih (hp.2.2 _), add_zero]
  | @iter _ _ body i k _ _ _ ih =>
    refine ih ((hp.1 i).bind fun r => ?_)
    cases r with
    | inl j => exact ⟨hp.1, hp.2⟩
    | inr b => exact hp.2 b

theorem Quiet.costs_bind {R : σ → σ → Prop} {N : ε → Prop} {p : Prog σ ε β} {k : β → Prog σ ε α}
    (hp : Quiet R N p) (hw : ∀ e s s', N e → R s s' → w ⟨e, s, s'⟩ = 0)
    (hk : ∀ b, Costs w Q (k b)) : Costs w Q (p.bind k) := by
  refine .bind ((hp.costs hw).mono fun n b hn => ?_)
  subst hn
  simpa only [zero_add] using hk b

/-- What a round owes: nothing if the loop goes on, `Q` if it ends. -/
def Round (Q : ℤ → α → Prop) (n : ℤ) : ι ⊕ α → Prop
  | .inl _ => n = 0
  | .inr a => Q n a

/-- A loop whose rounds weigh nothing until the last one. -/
theorem Costs.loop {body : ι → Prog σ ε (ι ⊕ α)} (hbody : ∀ i, Costs w (Round Q) (body i)) (i : ι) :
    Costs w Q (Prog.loop body i) := by
  intro t a ht
  rw [traced_loop_iff] at ht
  induction ht with
  | last h => exact hbody _ _ _ h
  | more h _ ih =>
    have hzero : cost w _ = 0 := hbody _ _ _ h
    rwa [cost_append, hzero, zero_add]

end Cost

end Prog

end Conc
