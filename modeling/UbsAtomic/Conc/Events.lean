import Mathlib.Data.Nat.Notation
import Mathlib.Data.Option.Basic

/-! Systems that move by events, one at a time.

        s₀ ── e₁ ──▶ s₁ ── e₂ ──▶ s₂ ── … ──▶ s

    An event either leads to the next state or cannot happen. `ok` restricts the runs that are spoken
    about: each event has to meet it in the state in which it happens. -/

namespace Conc

namespace Events

variable {σ ε : Type} {step : ε → σ → Option σ} {ok ok' : ε → σ → Prop} {start : σ → Prop}

/-- The states of all runs from a starting state, the events of which meet `ok`. -/
inductive Reach (step : ε → σ → Option σ) (ok : ε → σ → Prop) (start : σ → Prop) : σ → Prop
  | init {s : σ} (h : start s) : Reach step ok start s
  | next {s s' : σ} {e : ε} (h : Reach step ok start s) (hok : ok e s) (hs : step e s = some s') :
      Reach step ok start s'

/-- What holds in the beginning and is kept by every event holds in every state. -/
theorem Reach.invariant {J : σ → Prop} (hstart : ∀ s, start s → J s)
    (hstep : ∀ e s s', J s → ok e s → step e s = some s' → J s') {s : σ}
    (h : Reach step ok start s) : J s := by
  induction h with
  | init h => exact hstart _ h
  | next _ hok hs ih => exact hstep _ _ _ ih hok hs

/-- The state after some events, as long as they can happen and meet the check. -/
def play (step : ε → σ → Option σ) (check : ε → σ → Bool) : List ε → σ → Option σ
  | [], s => some s
  | e :: es, s => if check e s then (step e s).bind (play step check es) else none

theorem Reach.play {check : ε → σ → Bool} (hcheck : ∀ e s, check e s = true → ok e s) {es : List ε}
    {s s' : σ} (h : Reach step ok start s) (hs : play step check es s = some s') :
    Reach step ok start s' := by
  induction es generalizing s with
  | nil =>
    cases hs
    exact h
  | cons e es ih =>
    rw [Events.play] at hs
    split at hs
    · rename_i hc
      obtain ⟨s₁, hs₁, hs⟩ := Option.bind_eq_some_iff.mp hs
      exact ih (h.next (hcheck e s hc) hs₁) hs
    · cases hs

/-- Reading a property off the end of a list of events. -/
theorem reach_of_play (step : ε → σ → Option σ) (ok : ε → σ → Prop) (check : ε → σ → Bool)
    (hcheck : ∀ e s, check e s = true → ok e s) {s₀ : σ} (hs₀ : start s₀) (es : List ε)
    (P : σ → Prop) [DecidablePred P]
    (h : (Events.play step check es s₀).any (fun s => decide (P s)) = true) :
    ∃ s, Reach step ok start s ∧ P s := by
  obtain ⟨s, hs, hp⟩ := (Option.any_eq_true _ _).mp h
  exact ⟨s, Reach.play hcheck (.init hs₀) hs, of_decide_eq_true hp⟩

end Events

end Conc
