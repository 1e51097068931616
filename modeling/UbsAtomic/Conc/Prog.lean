import Mathlib.Logic.Function.Basic
import Mathlib.Data.Nat.Notation
import Mathlib.Data.Sum.Basic

/-! Programs over a shared memory, one atomic step at a time.

    A program is a tree of atomic steps. Each step carries a label `e`, reads and writes the whole
    memory in one go, and may use a choice made by its surroundings (a compare-and-swap that fails
    for no reason, a deadline that has passed, the message that arrives next). A step that returns
    `none` is blocked. Loops are a constructor, so that a program stays a finite tree and a loop
    costs one silent step each time round.

        ret a            the call has returned `a`
        act e f k        do the atomic step `f`, labelled `e`, and go on with `k`
        iter body i k    run `body i`; `inl j` goes round again with `j`, `inr b` leaves with `b` -/

namespace Conc

inductive Prog (σ ε : Type) : Type → Type 1
  | ret {α : Type} (a : α) : Prog σ ε α
  | act {α β : Type} (e : ε) (f : σ → ℕ → Option (σ × β)) (k : β → Prog σ ε α) : Prog σ ε α
  | iter {α β ι : Type} (body : ι → Prog σ ε (ι ⊕ β)) (i : ι) (k : β → Prog σ ε α) : Prog σ ε α

namespace Prog

variable {σ ε α β ι : Type}

/-- Sequencing: the continuation is pushed to the leaves. -/
def bind : Prog σ ε α → (α → Prog σ ε β) → Prog σ ε β
  | .ret a, k => k a
  | .act e f k', k => .act e f fun b => (k' b).bind k
  | .iter body i k', k => .iter body i fun b => (k' b).bind k

instance : Monad (Prog σ ε) where
  pure := .ret
  bind := .bind

@[simp] theorem pure_eq (a : α) : (pure a : Prog σ ε α) = .ret a := rfl

@[simp] theorem bind_eq (p : Prog σ ε α) (k : α → Prog σ ε β) : p >>= k = p.bind k := rfl

@[simp] theorem ret_bind (a : α) (k : α → Prog σ ε β) : (ret a).bind k = k a := rfl

/-- The `while` loop of the source: leave with `inr`, go round with `inl`. -/
def loop (body : ι → Prog σ ε (ι ⊕ β)) (i : ι) : Prog σ ε β := .iter body i .ret

/-- One more time round a loop. -/
def again (body : ι → Prog σ ε (ι ⊕ β)) (k : β → Prog σ ε α) : ι ⊕ β → Prog σ ε α
  | .inl j => .iter body j k
  | .inr b => k b

theorem bind_assoc (p : Prog σ ε α) (k : α → Prog σ ε β) (k' : β → Prog σ ε ι) :
    (p.bind k).bind k' = p.bind fun a => (k a).bind k' := by
  induction p with
  | ret a => rfl
  | act e f q ih =>
    simp only [bind]
    congr
    funext b
    exact ih b k
  | iter body i q _ ih =>
    simp only [bind]
    congr
    funext b
    exact ih b k

/-- What follows a loop follows its every round. -/
theorem bind_again {γ : Type} {body : ι → Prog σ ε (ι ⊕ β)} (p : Prog σ ε (ι ⊕ β))
    (k : β → Prog σ ε α) (k' : α → Prog σ ε γ) :
    (p.bind (again body k)).bind k' = p.bind (again body fun b => (k b).bind k') := by
  have hk : (fun r => (again body k r).bind k') = again body fun b => (k b).bind k' := by
    funext r
    cases r <;> rfl
  rw [bind_assoc, hk]

/-- The label of the next atomic step, when the program stands right before one. -/
def next : Prog σ ε α → Option ε
  | .act e _ _ => some e
  | _ => none

/-! ### One call alone

A call that runs with nobody else moving the memory: `Run p s a s'` when `p` started in `s` can
return `a` and leave `s'`. -/

inductive Run : {α : Type} → Prog σ ε α → σ → α → σ → Prop
  | ret {α : Type} (a : α) (s : σ) : Run (.ret a) s a s
  | act {α β : Type} {e : ε} {f : σ → ℕ → Option (σ × β)} {k : β → Prog σ ε α} {s s' s'' : σ}
      {c : ℕ} {b : β} {a : α} (hf : f s c = some (s', b)) (h : Run (k b) s' a s'') :
      Run (.act e f k) s a s''
  | iter {α β ι : Type} {body : ι → Prog σ ε (ι ⊕ β)} {i : ι} {k : β → Prog σ ε α} {s s' : σ}
      {a : α} (h : Run ((body i).bind (again body k)) s a s') : Run (.iter body i k) s a s'

/-- Some of the atomic steps of a call, alone: what a crash leaves behind. -/
inductive Steps : {α : Type} → Prog σ ε α → σ → Prog σ ε α → σ → Prop
  | refl {α : Type} (p : Prog σ ε α) (s : σ) : Steps p s p s
  | act {α β : Type} {e : ε} {f : σ → ℕ → Option (σ × β)} {k : β → Prog σ ε α} {s s' s'' : σ}
      {c : ℕ} {b : β} {q : Prog σ ε α} (hf : f s c = some (s', b)) (h : Steps (k b) s' q s'') :
      Steps (.act e f k) s q s''
  | iter {α β ι : Type} {body : ι → Prog σ ε (ι ⊕ β)} {i : ι} {k : β → Prog σ ε α} {s s' : σ}
      {q : Prog σ ε α} (h : Steps ((body i).bind (again body k)) s q s') :
      Steps (.iter body i k) s q s'

/-- Steps of the first part are steps of the whole. -/
theorem Steps.bind {p q : Prog σ ε α} {s s' : σ} (h : Steps p s q s') (k : α → Prog σ ε β) :
    Steps (p.bind k) s (q.bind k) s' := by
  induction h with
  | refl p s => exact .refl _ s
  | act hf _ ih => exact .act hf ih
  | iter _ ih => exact .iter (by rwa [bind_again] at ih)

/-- The undisturbed run, with choice `0` at every step and at most `n` steps. -/
def exec : ℕ → {α : Type} → Prog σ ε α → σ → Option (α × σ)
  | 0, _, _, _ => none
  | _ + 1, _, .ret a, s => some (a, s)
  | n + 1, _, .act _ f k, s => (f s 0).bind fun r => exec n (k r.2) r.1
  | n + 1, _, .iter body i k, s => exec n ((body i).bind (again body k)) s

end Prog

end Conc
