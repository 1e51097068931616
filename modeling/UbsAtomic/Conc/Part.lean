import UbsAtomic.Conc.Sequential

/-! Programs that use only part of a memory.

        τ   [ ...... | part | ...... ]        p   the call as it is, on all of the memory
                       │ P
        σ              [ part ]               p₀  the same call on a memory that is just the part

    `On P p p₀` says that the two are one program up to labels: every step of `p` is the step of `p₀`
    on the part, and leaves the rest alone. What the runs of `p₀` do is then what those of `p` do. -/

namespace Conc

namespace Prog

variable {σ τ ε ε' α β ι : Type}

/-- `p` is `p₀` on the part of the memory at `P`. -/
inductive On (P : Place τ σ) : {α : Type} → Prog τ ε α → Prog σ ε' α → Prop
  | ret {α : Type} (a : α) : On P (.ret a) (.ret a)
  | act {α β : Type} {e : ε} {e' : ε'} {f : τ → ℕ → Option (τ × β)} {f₀ : σ → ℕ → Option (σ × β)}
      {k : β → Prog τ ε α} {k₀ : β → Prog σ ε' α}
      (hf : ∀ s c, f s c = (f₀ (P.get s) c).map fun r => (P.set r.1 s, r.2))
      (hk : ∀ b, On P (k b) (k₀ b)) : On P (.act e f k) (.act e' f₀ k₀)
  | iter {α β ι : Type} {body : ι → Prog τ ε (ι ⊕ β)} {body₀ : ι → Prog σ ε' (ι ⊕ β)} {i : ι}
      {k : β → Prog τ ε α} {k₀ : β → Prog σ ε' α} (hb : ∀ j, On P (body j) (body₀ j))
      (hk : ∀ b, On P (k b) (k₀ b)) : On P (.iter body i k) (.iter body₀ i k₀)

section Rules

variable {P : Place τ σ} {Q : Place σ ι} {e : ε} {e' : ε'}

theorem On.bind {p : Prog τ ε β} {p₀ : Prog σ ε' β} {k : β → Prog τ ε α} {k₀ : β → Prog σ ε' α}
    (h : On P p p₀) (hk : ∀ b, On P (k b) (k₀ b)) : On P (p.bind k) (p₀.bind k₀) := by
  induction h with
  | ret b => exact hk b
  | act hf _ ih => exact .act hf fun b => ih b hk
  | iter hb _ _ ih => exact .iter hb fun b => ih b hk

theorem On.again {body : ι → Prog τ ε (ι ⊕ β)} {body₀ : ι → Prog σ ε' (ι ⊕ β)}
    {k : β → Prog τ ε α} {k₀ : β → Prog σ ε' α} (hb : ∀ j, On P (body j) (body₀ j))
    (hk : ∀ b, On P (k b) (k₀ b)) (r : ι ⊕ β) : On P (again body k r) (again body₀ k₀ r) := by
  cases r with
  | inl j => exact .iter hb hk
  | inr b => exact hk b

theorem On.loop {body : ι → Prog τ ε (ι ⊕ β)} {body₀ : ι → Prog σ ε' (ι ⊕ β)}
    (h : ∀ i, On P (body i) (body₀ i)) (i : ι) : On P (Prog.loop body i) (Prog.loop body₀ i) :=
  .iter h fun b => .ret b

theorem On.ite {c : Prop} [Decidable c] {p q : Prog τ ε α} {p₀ q₀ : Prog σ ε' α}
    (hp : On P p p₀) (hq : On P q q₀) : On P (if c then p else q) (if c then p₀ else q₀) := by
  by_cases hc : c
  · rw [if_pos hc, if_pos hc]
    exact hp
  · rw [if_neg hc, if_neg hc]
    exact hq

theorem On.rmw {f : ι → ι × β} : On P (rmwAt e (P.comp Q) f) (rmwAt e' Q f) :=
  .act (fun _ _ => rfl) .ret

theorem On.store {v : ι} : On P (storeAt e (P.comp Q) v) (storeAt e' Q v) :=
  .act (fun _ _ => rfl) .ret

theorem On.load (hP : P.Lawful) : On P (loadAt e (P.comp Q)) (loadAt e' Q) := by
  refine .act (fun s _ => ?_) .ret
  rw [Option.map_some, hP.set_get]
  rfl

theorem On.casWeak [DecidableEq ι] (hP : P.Lawful) {x v : ι} :
    On P (casWeakAt e (P.comp Q) x v) (casWeakAt e' Q x v) := by
  refine .act (fun s _ => ?_) .ret
  rw [apply_ite (Option.map _), Option.map_some, Option.map_some, hP.set_get]
  rfl

theorem On.within (p : Prog σ ε' α) : On P (p.within P e) p := by
  induction p with
  | ret a => exact .ret a
  | act _ f k ih => exact .act (fun _ _ => rfl) ih
  | iter body i k ihb ihk => exact .iter ihb ihk

end Rules

/-! ### The runs of both -/

section Runs

variable {P : Place τ σ} {p : Prog τ ε α} {p₀ : Prog σ ε' α}

/-- A run of the call is one of the call on the part, and the rest stays as it was. -/
theorem On.run {s s' : τ} {a : α} (hP : P.Lawful) (h : On P p p₀) (hr : Run p s a s') :
    ∃ r', Run p₀ (P.get s) a r' ∧ s' = P.set r' s := by
  induction hr generalizing p₀ with
  | ret a s =>
    cases h with
    | ret a => exact ⟨P.get s, .ret a _, (hP.set_get s).symm⟩
  | act hf _ ih =>
    cases h with
    | act hf₀ hk =>
      rw [hf₀, Option.map_eq_some_iff] at hf
      obtain ⟨⟨r, b⟩, hf, he⟩ := hf
      cases he
      obtain ⟨r', hr', rfl⟩ := ih (hk b)
      rw [hP.get_set] at hr'
      exact ⟨r', .act hf hr', hP.set_set _ _ _⟩
  | iter _ ih =>
    cases h with
    | iter hb hk =>
      obtain ⟨r', hr', hs'⟩ := ih ((hb _).bind (On.again hb hk))
      exact ⟨r', .iter hr', hs'⟩

/-- If the call on the part comes to an end, so does the call. -/
theorem On.total {C : ℕ → Prop} {Q : α → σ → Prop} {r : σ} (hP : P.Lawful) (h : On P p p₀)
    (ht : Total C Q p₀ r) (s : τ) (hs : P.get s = r) :
    Total C (fun a s' => ∃ r', Q a r' ∧ s' = P.set r' s) p s := by
  induction ht generalizing s p with
  | @ret a r hQ =>
    cases h with
    | ret a => exact .ret ⟨r, hQ, by rw [← hs, hP.set_get]⟩
  | act able _ ih =>
    subst hs
    cases h with
    | act hf₀ hk =>
      obtain ⟨c, hc, hsome⟩ := able
      refine .act ⟨c, hc, by rw [hf₀, Option.isSome_map, hsome]⟩ fun c s' b hc hf => ?_
      rw [hf₀, Option.map_eq_some_iff] at hf
      obtain ⟨⟨r, b⟩, hf, he⟩ := hf
      cases he
      refine (ih c r b hc hf (hk b) _ (hP.get_set r s)).mono ?_
      rintro a s' ⟨r', hQ, rfl⟩
      exact ⟨r', hQ, hP.set_set _ _ _⟩
  | iter _ ih =>
    cases h with
    | iter hb hk => exact .iter (ih ((hb _).bind (On.again hb hk)) s hs)

end Runs

end Prog

end Conc
