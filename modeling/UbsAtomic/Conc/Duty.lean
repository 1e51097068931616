import UbsAtomic.Conc.Machine

/-! Steps that put a thread under a duty.

    A program owes `D` when it makes a step into `D` whatever happens, before it returns or goes
    round a loop. It settles `L` when each of its steps in `L` leaves it owing `D`.

        ──L──▶ owes D ──▶ … ──▶ D

    When a state can only turn bad by a step in `L`, and is not bad after a step into `D`, then in
    every bad state somebody still owes `D`. -/

namespace Conc

variable {T σ ε Op R H α β ι : Type}

namespace Prog

/-- Whatever happens, the program makes a step into `D`, and before any loop. -/
def Owes (D : σ → Prop) : {α : Type} → Prog σ ε α → Prop
  | _, .ret _ => False
  | _, .act _ f k => ∀ s c s' b, f s c = some (s', b) → D s' ∨ Owes D (k b)
  | _, .iter _ _ _ => False

/-- Every step in `L` leaves the program owing `D`. -/
def Settles (D : σ → Prop) (L : σ → σ → Prop) : {α : Type} → Prog σ ε α → Prop
  | _, .ret _ => True
  | _, .act _ f k =>
    (∀ s c s' b, f s c = some (s', b) → L s s' → Owes D (k b)) ∧ ∀ b, Settles D L (k b)
  | _, .iter body _ k => (∀ j, Settles D L (body j)) ∧ ∀ b, Settles D L (k b)

variable {D : σ → Prop} {L : σ → σ → Prop}

theorem Owes.bind {p : Prog σ ε α} {k : α → Prog σ ε β} (h : Owes D p) : Owes D (p.bind k) := by
  induction p with
  | ret a => exact h.elim
  | act e f k' ih => exact fun s c s' b hf => (h s c s' b hf).imp_right fun hb => ih b hb
  | iter body i k' _ _ => exact h.elim

theorem Settles.bind {p : Prog σ ε α} {k : α → Prog σ ε β} (hp : Settles D L p)
    (hk : ∀ a, Settles D L (k a)) : Settles D L (p.bind k) := by
  induction p with
  | ret a => exact hk a
  | act e f k' ih =>
    exact ⟨fun s c s' b hf hl => (hp.1 s c s' b hf hl).bind, fun b => ih b (hp.2 b) hk⟩
  | iter body i k' _ ihk => exact ⟨hp.1, fun b => ihk b (hp.2 b) hk⟩

theorem Settles.loop {body : ι → Prog σ ε (ι ⊕ β)} {i : ι} (h : ∀ j, Settles D L (body j)) :
    Settles D L (loop body i) :=
  ⟨h, fun _ => trivial⟩

theorem Settles.closed (D : σ → Prop) (L : σ → σ → Prop) :
    Closed (σ := σ) (ε := ε) fun _ p => Settles D L p :=
  ⟨fun _ => trivial, .bind, .loop⟩

theorem Settles.unfold {body : ι → Prog σ ε (ι ⊕ β)} {i : ι} {k : β → Prog σ ε α}
    (h : Settles D L (.iter body i k)) : Settles D L ((body i).bind (again body k)) := by
  refine (h.1 i).bind fun r => ?_
  cases r with
  | inl j => exact h
  | inr b => exact h.2 b

/-- A program without steps in `L`. -/
theorem Quiet.settles {N : ε → Prop} {p : Prog σ ε α} (h : Quiet (fun s s' => ¬ L s s') N p) :
    Settles D L p := by
  induction p with
  | ret a => trivial
  | act e f k ih =>
    exact ⟨fun s c s' b hf hl => absurd hl (h.2.1 s c s' b hf), fun b => ih b (h.2.2 b)⟩
  | iter body i k ihb ihk => exact ⟨fun j => ihb j (h.1 j), fun b => ihk b (h.2 b)⟩

/-- Whether the choices lead to the end or to a loop with `keep` true after every step. -/
def escapes (keep : σ → Bool) : {α : Type} → Prog σ ε α → σ → List ℕ → Bool
  | _, .ret _, _, _ => true
  | _, .iter _ _ _, _, _ => true
  | _, .act _ _ _, _, [] => false
  | _, .act _ f k, s, c :: cs => (f s c).any fun r => keep r.1 && escapes keep (k r.2) r.1 cs

theorem not_owes_of_escapes {keep : σ → Bool} (hD : ∀ s, keep s = true → ¬ D s) {p : Prog σ ε α}
    {s : σ} {cs : List ℕ} (h : escapes keep p s cs = true) : ¬ Owes D p := by
  intro ho
  induction p generalizing s cs with
  | ret a => exact ho
  | iter body i k _ _ => exact ho
  | act e f k ih =>
    cases cs with
    | nil => cases h
    | cons c cs =>
      obtain ⟨⟨s', b⟩, hf, hr⟩ := (Option.any_eq_true _ _).mp h
      obtain ⟨hk, hr⟩ := Bool.and_eq_true_iff.mp hr
      rcases ho s c s' b hf with hd | ho
      · exact hD s' hk hd
      · exact ih b hr ho

end Prog

namespace Config

variable [DecidableEq T] (cl : Client T σ ε Op R H)

/-- Everything some interleaving reaches whose moves are all admitted by `ok`. -/
inductive Runs (ok : Config T σ ε Op R H → T → Config T σ ε Op R H → Prop)
    (x₀ : Config T σ ε Op R H) : Config T σ ε Op R H → Prop
  | init : Runs ok x₀ x₀
  | step {x y : Config T σ ε Op R H} {t : T} {m : Move Op} (h : Runs ok x₀ x)
      (hs : x.step cl t m = some y) (hok : ok x t y) : Runs ok x₀ y

/-- Runs a list of moves, as long as the check admits them. -/
def runMoves (ok : Config T σ ε Op R H → T → Config T σ ε Op R H → Bool) :
    List (T × Move Op) → Config T σ ε Op R H → Option (Config T σ ε Op R H)
  | [], x => some x
  | (t, m) :: ms, x => (x.step cl t m).bind fun y => if ok x t y then runMoves ok ms y else none

variable {cl}

theorem Runs.runMoves {ok : Config T σ ε Op R H → T → Config T σ ε Op R H → Prop}
    [∀ x t y, Decidable (ok x t y)] {ms : List (T × Move Op)} {x₀ x y : Config T σ ε Op R H}
    (h : Runs cl ok x₀ x) (hy : runMoves cl (fun x t y => ok x t y) ms x = some y) :
    Runs cl ok x₀ y := by
  induction ms generalizing x with
  | nil =>
    cases hy
    exact h
  | cons tm ms ih =>
    obtain ⟨t, m⟩ := tm
    obtain ⟨z, hz, hy⟩ := Option.bind_eq_some_iff.mp hy
    split at hy
    · rename_i hok
      exact ih (h.step hz (of_decide_eq_true hok)) hy
    · cases hy

/-- Reading a property off the end of a list of moves. -/
theorem runs_of_runMoves (ok : Config T σ ε Op R H → T → Config T σ ε Op R H → Prop)
    [∀ x t y, Decidable (ok x t y)] (ms : List (T × Move Op)) {x₀ : Config T σ ε Op R H}
    (P : Config T σ ε Op R H → Prop) [DecidablePred P]
    (h : (Config.runMoves cl (fun x t y => ok x t y) ms x₀).any P = true) :
    ∃ y, Runs cl ok x₀ y ∧ P y := by
  obtain ⟨y, hy, hp⟩ := (Option.any_eq_true _ _).mp h
  exact ⟨y, Runs.init.runMoves hy, of_decide_eq_true hp⟩

section Duty

variable {ok : Config T σ ε Op R H → T → Config T σ ε Op R H → Prop} {x₀ x y : Config T σ ε Op R H}
  {D bad : σ → Prop} {L : σ → σ → Prop} {duty : Op → Prop}

/-- What remains of a call settles `L`, or has no step in `L`. -/
def Bound (D : σ → Prop) (L : σ → σ → Prop) (duty : Op → Prop) (op : Op) (p : Prog σ ε R) : Prop :=
  duty op ∧ p.Settles D L ∨ p.Quiet (fun s s' => ¬ L s s') fun _ => True

/-- The invariant of a run: calls are bound, and in a bad state somebody owes. -/
structure Owing (D bad : σ → Prop) (L : σ → σ → Prop) (duty : Op → Prop)
    (x : Config T σ ε Op R H) : Prop where
  bound : ∀ u op p, x.pc u = some (op, p) → Bound D L duty op p
  owes : bad x.mem → ∃ u op p, x.pc u = some (op, p) ∧ duty op ∧ p.Owes D

/-- A thread in no position to owe moves, and the memory stays. -/
theorem Owing.move {t : T} {q : Option (Op × Prog σ ε R)} {hd : T → H} (h : Owing D bad L duty x)
    (ht : ∀ op p, x.pc t = some (op, p) → ¬ p.Owes D)
    (hq : ∀ op p, q = some (op, p) → Bound D L duty op p) :
    Owing D bad L duty ⟨x.mem, hd, Function.update x.pc t q⟩ := by
  refine ⟨fun u op p hu => ?_, fun hb => ?_⟩
  · rcases eq_or_ne u t with rfl | hne
    · exact hq op p (by simpa using hu)
    · exact h.bound u op p (by simpa [hne] using hu)
  · obtain ⟨u, op, p, hu, hd, ho⟩ := h.owes hb
    have hne : u ≠ t := by
      rintro rfl
      exact ht op p hu ho
    exact ⟨u, op, p, by simpa [hne] using hu, hd, ho⟩

/-- One step on the memory. -/
theorem Owing.act {t : T} {op : Op} {e : ε} {f : σ → ℕ → Option (σ × β)} {k : β → Prog σ ε R}
    {c : ℕ} {s : σ} {b : β} (h : Owing D bad L duty x) (hp : x.pc t = some (op, .act e f k))
    (hf : f x.mem c = some (s, b)) (hbad : bad s → bad x.mem ∨ L x.mem s)
    (hD : ∀ s, D s → ¬ bad s) :
    Owing D bad L duty ⟨s, x.held, Function.update x.pc t (some (op, k b))⟩ := by
  have hown : ∀ hb : bad s, L x.mem s ∨ duty op ∧ (Prog.act e f k).Owes D → ∃ u op' p,
      Function.update x.pc t (some (op, k b)) u = some (op', p) ∧ duty op' ∧ p.Owes D := by
    intro hb hl
    refine ⟨t, op, k b, by simp, ?_⟩
    rcases hl with hl | ⟨hd, ho⟩
    · rcases h.bound t op _ hp with ⟨hd, hs⟩ | hq
      · exact ⟨hd, hs.1 _ _ _ _ hf hl⟩
      · exact absurd hl (hq.2.1 _ _ _ _ hf)
    · rcases ho _ _ _ _ hf with hd' | ho
      · exact absurd hb (hD s hd')
      · exact ⟨hd, ho⟩
  refine ⟨fun u op' p hu => ?_, fun hb => ?_⟩
  · rcases eq_or_ne u t with rfl | hne
    · obtain ⟨rfl, rfl⟩ : op = op' ∧ k b = p := by simpa using hu
      exact (h.bound u op _ hp).imp (fun hs => ⟨hs.1, hs.2.2 b⟩) fun hq => hq.2.2 b
    · exact h.bound u op' p (by simpa [hne] using hu)
  · rcases hbad hb with hb' | hl
    · obtain ⟨u, op', p, hu, hd, ho⟩ := h.owes hb'
      rcases eq_or_ne u t with rfl | hne
      · rw [hp] at hu
        cases hu
        exact hown hb (.inr ⟨hd, ho⟩)
      · exact ⟨u, op', p, by simpa [hne] using hu, hd, ho⟩
    · exact hown hb (.inl hl)

/-- In every bad state of a run somebody is under the duty that ends it. -/
theorem Runs.owing (hx₀ : ∀ t, x₀.pc t = none) (h₀ : ¬ bad x₀.mem)
    (hcode : ∀ t h op, cl.allowed t h op = true → Bound D L duty op (cl.code t op))
    (hbad : ∀ x t y, ok x t y → bad y.mem → bad x.mem ∨ L x.mem y.mem)
    (hD : ∀ s, D s → ¬ bad s) (h : Runs cl ok x₀ x) : Owing D bad L duty x := by
  induction h with
  | init => exact ⟨fun u op p hu => by simp [hx₀ u] at hu, fun hb => absurd hb h₀⟩
  | @step x y t m _ hs hok ih =>
    have hb := hbad x t y hok
    cases moves_of_step hs with
    | call hp ha =>
      refine ih.move (fun op p hu => by simp [hp] at hu) ?_
      rintro op p ⟨⟩
      exact hcode t _ _ ha
    | ret hp =>
      refine ih.move (fun op p hu => ?_) (fun _ _ h => by cases h)
      rw [hp] at hu
      cases hu
      exact id
    | act hp hf => exact ih.act hp hf hb hD
    | @iter op _ _ body i k hp =>
      refine ih.move (fun op p hu => ?_) ?_
      · rw [hp] at hu
        cases hu
        exact id
      · rintro op p ⟨⟩
        rcases ih.bound t _ _ hp with ⟨hd, hs⟩ | hq
        · exact .inl ⟨hd, hs.unfold⟩
        · exact .inr (hq.steps (.iter (.refl _ x.mem)))

end Duty

end Config

end Conc
