import UbsAtomic.Conc.Logic

/-! Threads that call a shared object, in every interleaving.

    A `Client` says which calls a thread may make, given what it holds, and what a call does to its
    holdings when it starts and when it returns. A configuration is the memory, what every thread
    holds, and the rest of the call it is in.

        idle ──call──▶ in a call ──step──▶ … ──step──▶ returned ──step──▶ idle

    `Config.step` is a function of the thread and the choice, so that a schedule can be run. The
    soundness theorem at the end turns one proof outline per call into an invariant of everything
    reachable. -/

namespace Conc

variable {T σ ε Op R H G : Type}

structure Client (T σ ε Op R H : Type) where
  code : T → Op → Prog σ ε R
  allowed : T → H → Op → Bool
  start : H → Op → H
  finish : H → Op → R → H

structure Config (T σ ε Op R H : Type) where
  mem : σ
  held : T → H
  pc : T → Option (Op × Prog σ ε R)

/-- What a schedule asks of a thread. -/
inductive Move (Op : Type) where
  | call (op : Op)
  | step (choice : ℕ)

namespace Config

/-- The label of the step every thread stands before. -/
def labels (x : Config T σ ε Op R H) : T → Option ε := fun t => (x.pc t).bind (·.2.next)

/-- Nobody is in a call. -/
def Quiescent (x : Config T σ ε Op R H) : Prop := ∀ t, x.pc t = none

/-- Whether thread `t` is about to return `r` from `op`. -/
def Returns [DecidableEq Op] [DecidableEq R] (x : Config T σ ε Op R H) (t : T) (op : Op) (r : R) :
    Bool :=
  match x.pc t with
  | some (op', .ret r') => op' = op && r' = r
  | _ => false

theorem pc_of_returns [DecidableEq Op] [DecidableEq R] {x : Config T σ ε Op R H} {t : T} {op : Op}
    {r : R} (h : x.Returns t op r = true) : x.pc t = some (op, .ret r) := by
  unfold Returns at h
  split at h
  · rename_i hp
    obtain ⟨rfl, rfl⟩ : _ = op ∧ _ = r := by simpa using h
    exact hp
  · cases h

variable [DecidableEq T] (cl : Client T σ ε Op R H)

/-- One move of thread `t`. -/
def step (x : Config T σ ε Op R H) (t : T) : Move Op → Option (Config T σ ε Op R H)
  | .call op =>
    match x.pc t with
    | none =>
      if cl.allowed t (x.held t) op then
        some { x with
          held := Function.update x.held t (cl.start (x.held t) op)
          pc := Function.update x.pc t (some (op, cl.code t op)) }
      else none
    | some _ => none
  | .step c =>
    match x.pc t with
    | none => none
    | some (op, .ret r) =>
      some { x with
        held := Function.update x.held t (cl.finish (x.held t) op r)
        pc := Function.update x.pc t none }
    | some (op, .act _ f k) =>
      (f x.mem c).map fun r =>
        { x with mem := r.1, pc := Function.update x.pc t (some (op, k r.2)) }
    | some (op, .iter body i k) =>
      some { x with pc := Function.update x.pc t (some (op, (body i).bind (Prog.again body k))) }

/-- The moves of thread `t` out of `x`: `step`, read as a relation. -/
inductive Moves (x : Config T σ ε Op R H) (t : T) : Config T σ ε Op R H → Prop
  | call {op : Op} (hp : x.pc t = none) (ha : cl.allowed t (x.held t) op = true) :
      Moves x t { x with
        held := Function.update x.held t (cl.start (x.held t) op)
        pc := Function.update x.pc t (some (op, cl.code t op)) }
  | ret {op : Op} {r : R} (hp : x.pc t = some (op, .ret r)) :
      Moves x t { x with
        held := Function.update x.held t (cl.finish (x.held t) op r)
        pc := Function.update x.pc t none }
  | act {op : Op} {β : Type} {e : ε} {f : σ → ℕ → Option (σ × β)} {k : β → Prog σ ε R} {c : ℕ}
      {s : σ} {b : β} (hp : x.pc t = some (op, .act e f k)) (hf : f x.mem c = some (s, b)) :
      Moves x t { x with mem := s, pc := Function.update x.pc t (some (op, k b)) }
  | iter {op : Op} {ι β : Type} {body : ι → Prog σ ε (ι ⊕ β)} {i : ι} {k : β → Prog σ ε R}
      (hp : x.pc t = some (op, .iter body i k)) :
      Moves x t { x with pc := Function.update x.pc t (some (op, (body i).bind (Prog.again body k))) }

variable {cl} in
theorem moves_of_step {x y : Config T σ ε Op R H} {t : T} {m : Move Op}
    (hs : x.step cl t m = some y) : x.Moves cl t y := by
  cases m with
  | call op =>
    rw [Config.step] at hs
    split at hs
    · rename_i hp
      split at hs
      · rename_i ha
        cases hs
        exact .call hp ha
      · cases hs
    · cases hs
  | step c =>
    rw [Config.step] at hs
    split at hs
    · cases hs
    · rename_i hp
      cases hs
      exact .ret hp
    · rename_i hp
      obtain ⟨⟨s, b⟩, hf, rfl⟩ := Option.map_eq_some_iff.mp hs
      exact .act hp hf
    · rename_i hp
      cases hs
      exact .iter hp

variable {cl} in
/-- The others stay where they are. -/
theorem Moves.pc_of_ne {x y : Config T σ ε Op R H} {t u : T} (h : x.Moves cl t y) (hu : u ≠ t) :
    y.pc u = x.pc u := by
  cases h <;> simp [hu]

/-- The step `t` stands before, if it is a labelled one, meets the condition. -/
def Meets (cond : (T → Option ε) → T → ε → σ → Prop) (x : Config T σ ε Op R H) (t : T) : Prop :=
  ∀ e, x.labels t = some e → cond x.labels t e x.mem

/-- Everything some interleaving reaches while every step meets the condition. -/
inductive Reach (cond : (T → Option ε) → T → ε → σ → Prop) (x₀ : Config T σ ε Op R H) :
    Config T σ ε Op R H → Prop
  | init : Reach cond x₀ x₀
  | step {x y : Config T σ ε Op R H} {t : T} {m : Move Op} (h : Reach cond x₀ x)
      (hc : x.Meets cond t) (hs : x.step cl t m = some y) : Reach cond x₀ y

/-- A run with an observer: `watch` sees every move and keeps what it likes. -/
inductive Watched {Ω : Type} (cond : (T → Option ε) → T → ε → σ → Prop)
    (watch : Config T σ ε Op R H → T → Config T σ ε Op R H → Ω → Ω)
    (x₀ : Config T σ ε Op R H) (ω₀ : Ω) : Config T σ ε Op R H → Ω → Prop
  | init : Watched cond watch x₀ ω₀ x₀ ω₀
  | step {x y : Config T σ ε Op R H} {ω : Ω} {t : T} {m : Move Op}
      (h : Watched cond watch x₀ ω₀ x ω) (hc : x.Meets cond t) (hs : x.step cl t m = some y) :
      Watched cond watch x₀ ω₀ y (watch x t y ω)

/-- Everything some interleaving reaches. -/
def Reachable (x₀ x : Config T σ ε Op R H) : Prop := Reach cl (fun _ _ _ _ => True) x₀ x

variable {cl} in
/-- Every run can be observed. -/
theorem Reach.watched {Ω : Type} {cond : (T → Option ε) → T → ε → σ → Prop}
    {watch : Config T σ ε Op R H → T → Config T σ ε Op R H → Ω → Ω} {x₀ x : Config T σ ε Op R H}
    (ω₀ : Ω) (h : Reach cl cond x₀ x) : ∃ ω, Watched cl cond watch x₀ ω₀ x ω := by
  induction h with
  | init => exact ⟨ω₀, .init⟩
  | step _ hc hs ih =>
    obtain ⟨ω, hω⟩ := ih
    exact ⟨_, hω.step hc hs⟩

variable {cl} in
/-- A run that meets a condition meets every weaker one. -/
theorem Reach.mono {cond cond' : (T → Option ε) → T → ε → σ → Prop} {x₀ x : Config T σ ε Op R H}
    (h : Reach cl cond x₀ x) (hc : ∀ ℓ t e s, cond ℓ t e s → cond' ℓ t e s) :
    Reach cl cond' x₀ x := by
  induction h with
  | init => exact .init
  | step _ hm hs ih => exact ih.step (fun e he => hc _ _ _ _ (hm e he)) hs

variable {cl} in
/-- A thread's calls obey `Q`, hence so does the rest of the call it is in. -/
theorem Reach.obeys {cond : (T → Option ε) → T → ε → σ → Prop} {Q : ε → σ → σ → Prop} {t : T}
    {x₀ x : Config T σ ε Op R H} (h : Reach cl cond x₀ x)
    (hQ : ∀ h op, cl.allowed t h op → Prog.Obeys Q (cl.code t op)) (h₀ : x₀.pc t = none)
    {op : Op} {p : Prog σ ε R} (hp : x.pc t = some (op, p)) :
    Prog.Obeys Q p := by
  induction h generalizing op p with
  | init => simp [h₀] at hp
  | @step x y u m _ _ hs ih =>
    by_cases hut : t = u
    · subst hut
      cases moves_of_step hs with
      | @call op' _ ha =>
        obtain ⟨rfl, rfl⟩ : op' = op ∧ cl.code t op' = p := by simpa using hp
        exact hQ _ op' ha
      | ret _ => simp at hp
      | @act op' _ e f k c s b hx hf =>
        obtain ⟨rfl, rfl⟩ : op' = op ∧ k b = p := by simpa using hp
        exact (ih hx).2 b
      | @iter op' _ _ body i k hx =>
        obtain ⟨rfl, rfl⟩ : op' = op ∧ (body i).bind (Prog.again body k) = p := by simpa using hp
        exact (ih hx).unfold
    · exact ih ((moves_of_step hs).pc_of_ne hut ▸ hp)

variable {cl} in
/-- What one move of a thread does to the memory. -/
theorem Reach.step_obeys {cond : (T → Option ε) → T → ε → σ → Prop} {Q : ε → σ → σ → Prop} {t : T}
    {m : Move Op} {x₀ x y : Config T σ ε Op R H} (h : Reach cl cond x₀ x)
    (hQ : ∀ h op, cl.allowed t h op → Prog.Obeys Q (cl.code t op)) (h₀ : x₀.pc t = none)
    (hs : x.step cl t m = some y) :
    x.labels t = none ∧ y.mem = x.mem ∨ ∃ e, x.labels t = some e ∧ Q e x.mem y.mem := by
  cases moves_of_step hs with
  | call hx _ => exact .inl ⟨by simp [Config.labels, hx], rfl⟩
  | ret hx => exact .inl ⟨by simp [Config.labels, hx, Prog.next], rfl⟩
  | @act _ _ e _ _ _ _ _ hx hf =>
    exact .inr ⟨e, by simp [Config.labels, hx, Prog.next], (h.obeys hQ h₀ hx).1 _ _ _ _ hf⟩
  | iter hx => exact .inl ⟨by simp [Config.labels, hx, Prog.next], rfl⟩

variable {cl} in
/-- Thread `t` goes on alone. -/
theorem Reachable.steps {x₀ x : Config T σ ε Op R H} (h : Reachable cl x₀ x) {t : T} {op : Op}
    {p q : Prog σ ε R} {s : σ} (hp : x.pc t = some (op, p)) (hs : Prog.Steps p x.mem q s) :
    Reachable cl x₀ { x with mem := s, pc := Function.update x.pc t (some (op, q)) } := by
  generalize hm : x.mem = m at hs
  induction hs generalizing x with
  | refl p s =>
    subst hm
    rwa [← hp, Function.update_eq_self]
  | @act _ e f k s s' s'' c b q hf _ ih =>
    subst hm
    have hstep : x.step cl t (.step c)
        = some { x with mem := s', pc := Function.update x.pc t (some (op, k b)) } := by
      simp [Config.step, hp, hf]
    simpa using ih (Reach.step h (fun _ _ => trivial) hstep) (by simp) rfl
  | @iter _ _ body i k s s' q _ ih =>
    subst hm
    have hstep : x.step cl t (.step 0) = some { x with
        pc := Function.update x.pc t (some (op, (body i).bind (Prog.again body k))) } := by
      simp [Config.step, hp]
    simpa using ih (Reach.step h (fun _ _ => trivial) hstep) (by simp) rfl

/-! ### Running a schedule

`ok` is checked before every step, so that a schedule can be shown to meet a condition. -/

section Schedule

variable (ok : Config T σ ε Op R H → T → Bool)

def stepIf (x : Config T σ ε Op R H) (t : T) (m : Move Op) : Option (Config T σ ε Op R H) :=
  if ok x t then x.step cl t m else none

/-- Thread `t` goes on alone until its call is over. -/
def drive (t : T) : ℕ → Config T σ ε Op R H → Option (Config T σ ε Op R H)
  | 0, _ => none
  | n + 1, x =>
    match x.pc t with
    | none => some x
    | some _ => (x.stepIf cl ok t (.step 0)).bind (drive t n)

/-- Thread `t` goes on alone until it stands before a step labelled `e`. -/
def driveTo [DecidableEq ε] (t : T) (e : ε) :
    ℕ → Config T σ ε Op R H → Option (Config T σ ε Op R H)
  | 0, _ => none
  | n + 1, x =>
    if x.labels t = some e then some x
    else (x.stepIf cl ok t (.step 0)).bind (driveTo t e n)

/-- A piece of a schedule. -/
inductive Piece (T ε Op : Type) where
  | call (t : T) (op : Op)
  | steps (t : T) (choices : List ℕ)
  | upTo (t : T) (e : ε)
  | finish (t : T)

def runSteps (t : T) : List ℕ → Config T σ ε Op R H → Option (Config T σ ε Op R H)
  | [], x => some x
  | c :: cs, x => (x.stepIf cl ok t (.step c)).bind (runSteps t cs)

variable [DecidableEq ε]

def runPiece (x : Config T σ ε Op R H) : Piece T ε Op → Option (Config T σ ε Op R H)
  | .call t op => x.stepIf cl ok t (.call op)
  | .steps t cs => runSteps cl ok t cs x
  | .upTo t e => driveTo cl ok t e 2000 x
  | .finish t => drive cl ok t 2000 x

def runAll : List (Piece T ε Op) → Config T σ ε Op R H → Option (Config T σ ε Op R H)
  | [], x => some x
  | p :: ps, x => (runPiece cl ok x p).bind (runAll ps)

end Schedule

/-- The thread a piece is about. -/
def Piece.thread : Piece T ε Op → T
  | .call t _ | .steps t _ | .upTo t _ | .finish t => t

section

variable {cl} {ok : Config T σ ε Op R H → T → Bool} {x y : Config T σ ε Op R H} {t : T}
  {J : Config T σ ε Op R H → Prop}

section

variable (hstep : ∀ x y m, ok x t = true → x.step cl t m = some y → J x → J y)

include hstep

theorem stepIf_induct {m : Move Op} (h : J x) (hy : stepIf cl ok x t m = some y) : J y := by
  rw [Config.stepIf] at hy
  split at hy
  · exact hstep x y m ‹_› hy h
  · cases hy

theorem drive_induct {n : ℕ} (h : J x) (hy : drive cl ok t n x = some y) : J y := by
  induction n generalizing x with
  | zero => simp [Config.drive] at hy
  | succ n ih =>
    rw [Config.drive] at hy
    split at hy
    · cases hy
      exact h
    · obtain ⟨z, hz, hy⟩ := Option.bind_eq_some_iff.mp hy
      exact ih (stepIf_induct hstep h hz) hy

theorem runSteps_induct {cs : List ℕ} (h : J x) (hy : runSteps cl ok t cs x = some y) : J y := by
  induction cs generalizing x with
  | nil => cases hy; exact h
  | cons c cs ih =>
    obtain ⟨z, hz, hy⟩ := Option.bind_eq_some_iff.mp hy
    exact ih (stepIf_induct hstep h hz) hy

theorem driveTo_induct [DecidableEq ε] {e : ε} {n : ℕ} (h : J x)
    (hy : driveTo cl ok t e n x = some y) : J y := by
  induction n generalizing x with
  | zero => simp [Config.driveTo] at hy
  | succ n ih =>
    rw [Config.driveTo] at hy
    split at hy
    · cases hy
      exact h
    · obtain ⟨z, hz, hy⟩ := Option.bind_eq_some_iff.mp hy
      exact ih (stepIf_induct hstep h hz) hy

end

variable [DecidableEq ε]

theorem runPiece_induct {p : Piece T ε Op}
    (hstep : ∀ x y m, ok x p.thread = true → x.step cl p.thread m = some y → J x → J y) (h : J x)
    (hy : runPiece cl ok x p = some y) : J y := by
  cases p with
  | call t op => exact stepIf_induct hstep h hy
  | steps t cs => exact runSteps_induct hstep h hy
  | upTo t e => exact driveTo_induct hstep h hy
  | finish t => exact drive_induct hstep h hy

/-- What every step of the threads of a schedule keeps, the schedule keeps. -/
theorem runAll_induct {ps : List (Piece T ε Op)}
    (hstep : ∀ p ∈ ps, ∀ x y m,
      ok x p.thread = true → x.step cl p.thread m = some y → J x → J y)
    (h : J x) (hy : runAll cl ok ps x = some y) : J y := by
  induction ps generalizing x with
  | nil => cases hy; exact h
  | cons p ps ih =>
    obtain ⟨z, hz, hy⟩ := Option.bind_eq_some_iff.mp hy
    exact ih (fun q hq => hstep q (List.mem_cons_of_mem _ hq))
      (runPiece_induct (hstep p List.mem_cons_self) h hz) hy

variable {cond : (T → Option ε) → T → ε → σ → Prop} {x₀ : Config T σ ε Op R H}

/-- What a schedule ends in is reachable. -/
theorem Reach.runAll (hok : ∀ x t, ok x t = true → Meets cond x t) {ps : List (Piece T ε Op)}
    (h : Reach cl cond x₀ x) (hy : runAll cl ok ps x = some y) : Reach cl cond x₀ y :=
  runAll_induct (fun _ _ x _ _ ho hs hr => hr.step (hok x _ ho) hs) h hy

/-- Reading a property off the end of a schedule. -/
theorem Reach.runAll_any (hok : ∀ x t, ok x t = true → Meets cond x t) (h : Reach cl cond x₀ x)
    (ps : List (Piece T ε Op)) {p : Config T σ ε Op R H → Prop} [DecidablePred p]
    (hp : (Config.runAll cl ok ps x).any p = true) : ∃ y, Reach cl cond x₀ y ∧ p y := by
  obtain ⟨y, hy, hp⟩ := (Option.any_eq_true _ _).mp hp
  exact ⟨y, h.runAll hok hy, of_decide_eq_true hp⟩

theorem reach_of_runAll (hok : ∀ x t, ok x t = true → Meets cond x t) (ps : List (Piece T ε Op))
    {p : Config T σ ε Op R H → Prop} [DecidablePred p]
    (h : (Config.runAll cl ok ps x₀).any p = true) : ∃ y, Reach cl cond x₀ y ∧ p y :=
  Reach.runAll_any hok .init ps h

/-- The same where the check has to know that nobody but the threads of `L` is in a call. -/
theorem reach_of_runAll_among (L : List T)
    (hok : ∀ x t, (∀ u, u ∉ L → x.pc u = none) → ok x t = true → Meets cond x t)
    (ps : List (Piece T ε Op)) (hL : ∀ q ∈ ps, q.thread ∈ L) (hx₀ : ∀ u, x₀.pc u = none)
    {p : Config T σ ε Op R H → Prop} [DecidablePred p]
    (h : (runAll cl ok ps x₀).any p = true) :
    ∃ y, Reach cl cond x₀ y ∧ p y ∧ ∀ u, u ∉ L → y.pc u = none := by
  obtain ⟨y, hy, hp⟩ := (Option.any_eq_true _ _).mp h
  have hJ : Reach cl cond x₀ y ∧ ∀ u, u ∉ L → y.pc u = none := by
    refine runAll_induct (J := fun x => Reach cl cond x₀ x ∧ ∀ u, u ∉ L → x.pc u = none)
      (fun q hq x z m ho hs hr => ⟨hr.1.step (hok x _ hr.2 ho) hs, fun u hu => ?_⟩)
      ⟨.init, fun u _ => hx₀ u⟩ hy
    have hne : u ≠ q.thread := fun hut => hu (hut ▸ hL q hq)
    rw [(moves_of_step hs).pc_of_ne hne, hr.2 u hu]
  exact ⟨y, hJ.1, of_decide_eq_true hp, hJ.2⟩

end

/-- A run goes on along a schedule. -/
theorem Reachable.runAll [DecidableEq ε] {cl : Client T σ ε Op R H} {x₀ x : Config T σ ε Op R H}
    (h : Reachable cl x₀ x) (ps : List (Piece T ε Op)) {p : Config T σ ε Op R H → Prop}
    [DecidablePred p] (hp : (Config.runAll cl (fun _ _ => true) ps x).any p = true) :
    ∃ y, Reachable cl x₀ y ∧ p y :=
  Reach.runAll_any (fun _ _ _ _ _ => trivial) h ps hp

theorem reachable_of_runAll [DecidableEq ε] {cl : Client T σ ε Op R H} {x₀ : Config T σ ε Op R H}
    (ps : List (Piece T ε Op)) {p : Config T σ ε Op R H → Prop} [DecidablePred p]
    (h : (Config.runAll cl (fun _ _ => true) ps x₀).any p = true) :
    ∃ y, Reachable cl x₀ y ∧ p y :=
  Reachable.runAll .init ps h

theorem reachable_of_runAll_among [DecidableEq ε] {cl : Client T σ ε Op R H}
    {x₀ : Config T σ ε Op R H} (L : List T) (ps : List (Piece T ε Op)) (hL : ∀ q ∈ ps, q.thread ∈ L)
    (hx₀ : ∀ u, x₀.pc u = none) {p : Config T σ ε Op R H → Prop} [DecidablePred p]
    (h : (Config.runAll cl (fun _ _ => true) ps x₀).any p = true) :
    ∃ y, Reachable cl x₀ y ∧ p y ∧ ∀ u, u ∉ L → y.pc u = none :=
  reach_of_runAll_among L (fun _ _ _ _ _ _ => trivial) ps hL hx₀ h

end Config

/-! ### Soundness of proof outlines -/

/-- What a proof of a client has to give besides the outline: the ghosts of an idle thread, how the
    ghost may move while a thread has its holdings, and what every call has to return. -/
structure Spec (T σ ε Op R H G : Type) extends Outline T σ ε G where
  rest : T → H → G → Prop
  moves : T → H → G → G → Prop
  good : T → H → Op → R → Prop

variable [DecidableEq T]

/-- The obligation for the rest of a call that started with holdings `h`. -/
def Spec.after (S : Spec T σ ε Op R H G) (cl : Client T σ ε Op R H) (t : T) (h : H) (op : Op)
    (p : Prog σ ε R) (g : G) : Prop :=
  p.wp S.toOutline t (S.moves t h)
    (fun r g' => S.good t h op r ∧ S.rest t (cl.finish h op r) g') g

/-- Every call a client may make meets its obligation. -/
structure Spec.Proved (S : Spec T σ ε Op R H G) (cl : Client T σ ε Op R H) : Prop where
  stay : ∀ t h g g', S.moves t h g g' → S.moves t h g' g'
  idle : ∀ t h g, S.rest t h g → S.lab none g ∧ S.moves t h g g
  start : ∀ t h op g, cl.allowed t h op → S.rest t h g → S.moves t (cl.start h op) g g
  call : ∀ t h op g, cl.allowed t h op → S.rest t h g →
    S.after cl t (cl.start h op) op (cl.code t op) g

/-- The invariant of configurations that an outline gives. -/
structure Spec.Holds (S : Spec T σ ε Op R H G) (cl : Client T σ ε Op R H)
    (x : Config T σ ε Op R H) (γ : T → G) : Prop where
  inv : S.inv x.mem γ
  moved : ∀ t, ∃ g, S.moves t (x.held t) g (γ t)
  idle : ∀ t, x.pc t = none → S.rest t (x.held t) (γ t)
  busy : ∀ t op p, x.pc t = some (op, p) → S.after cl t (x.held t) op p (γ t)

namespace Spec.Holds

variable {S : Spec T σ ε Op R H G} {cl : Client T σ ε Op R H} {x : Config T σ ε Op R H}
  {γ : T → G}

/-- The ghost of every thread fits the step it stands before. -/
theorem labels (h : S.Holds cl x γ) (hS : S.Proved cl) (t : T) : S.lab (x.labels t) (γ t) := by
  cases hp : x.pc t with
  | none =>
    rw [Config.labels, hp]
    exact (hS.idle t _ _ (h.idle t hp)).1
  | some c =>
    obtain ⟨op, p⟩ := c
    rw [Config.labels, hp]
    exact Prog.wp_lab (h.busy t op p hp)

/-- A call that has returned gave what it had to give. -/
theorem returned (h : S.Holds cl x γ) {t : T} {op : Op} {r : R} (hp : x.pc t = some (op, .ret r)) :
    S.good t (x.held t) op r :=
  (h.busy t op _ hp).2.1

theorem pre (h : S.Holds cl x γ) (hS : S.Proved cl) {t : T} (hc : x.Meets S.cond t) {e : ε}
    (he : x.labels t = some e) : S.Pre t e (γ t) x.mem γ :=
  ⟨h.inv, rfl, x.labels, h.labels hS, hc e he⟩

/-- Thread `t` moves: everybody else keeps ghost, holdings and program. -/
theorem update (h : S.Holds cl x γ) (t : T) (g : G) (hd : H) (s : σ) (q : Option (Op × Prog σ ε R))
    (hinv : S.inv s (Function.update γ t g)) (hb : ∃ g₀, S.moves t hd g₀ g)
    (hidle : q = none → S.rest t hd g) (hbusy : ∀ op p, q = some (op, p) → S.after cl t hd op p g) :
    S.Holds cl ⟨s, Function.update x.held t hd, Function.update x.pc t q⟩ (Function.update γ t g) := by
  refine ⟨hinv, fun u => ?_, fun u hu => ?_, fun u op p hu => ?_⟩ <;> by_cases hut : u = t
  · subst hut
    simpa using hb
  · simpa [hut] using h.moved u
  · subst hut
    simpa using hidle (by simpa using hu)
  · simpa [hut] using h.idle u (by simpa [hut] using hu)
  · subst hut
    simpa using hbusy op p (by simpa using hu)
  · simpa [hut] using h.busy u op p (by simpa [hut] using hu)

theorem step (h : S.Holds cl x γ) (hS : S.Proved cl) {t : T} {m : Move Op}
    {y : Config T σ ε Op R H} (hc : x.Meets S.cond t) (hs : x.step cl t m = some y) :
    ∃ g, S.Holds cl y (Function.update γ t g) ∧ S.moves t (y.held t) (γ t) g := by
  have hself : ∀ f : T → G, Function.update f t (f t) = f := fun f => Function.update_eq_self t f
  cases Config.moves_of_step hs with
  | @call op hp ha =>
    have hr := h.idle t hp
    have hm := hS.start t _ op _ ha hr
    refine ⟨_, h.update t (γ t) _ _ _ ?_ ⟨_, hm⟩ (by simp) ?_, by simpa using hm⟩
    · rw [hself]
      exact h.inv
    · rintro op' p' hq
      cases hq
      exact hS.call t _ op _ ha hr
  | @ret op r hp =>
    obtain ⟨_, _, hg⟩ := h.busy t op _ hp
    have hm := (hS.idle t _ _ hg).2
    refine ⟨_, h.update t (γ t) _ _ _ ?_ ⟨_, hm⟩ (fun _ => hg) (by simp), by simpa using hm⟩
    rw [hself]
    exact h.inv
  | @act op _ e f k c s' b hp hf =>
    have hl : x.labels t = some e := by simp [Config.labels, hp, Prog.next]
    obtain ⟨g', hk, hi, hw⟩ := ((h.busy t op _ hp).2 x.mem γ (h.pre hS hc hl)).2 c s' b hf
    have hy := h.update t g' _ s' (some (op, k b)) hi ⟨_, hk⟩ (by simp) (by rintro _ _ ⟨⟩; exact hw)
    rw [Function.update_eq_self] at hy
    exact ⟨g', hy, hk⟩
  | @iter op _ _ body i k hp =>
    have hy := h.update t (γ t) (x.held t) x.mem (some (op, (body i).bind (Prog.again body k)))
      (by rw [hself]; exact h.inv) (h.moved t) (by simp)
      (by rintro _ _ ⟨⟩; exact Prog.wp_unfold (h.busy t op _ hp))
    rw [Function.update_eq_self] at hy
    obtain ⟨g₀, hm⟩ := h.moved t
    exact ⟨_, hy, hS.stay t _ _ _ hm⟩

end Spec.Holds

/-- Every reachable configuration has ghost values under which the invariant holds. -/
theorem Spec.Proved.sound {S : Spec T σ ε Op R H G} {cl : Client T σ ε Op R H}
    {x₀ x : Config T σ ε Op R H} {γ₀ : T → G} (hS : S.Proved cl) (h₀ : S.Holds cl x₀ γ₀)
    (hx : Config.Reach cl S.cond x₀ x) : ∃ γ, S.Holds cl x γ := by
  induction hx with
  | init => exact ⟨γ₀, h₀⟩
  | step _ hc hs ih =>
    obtain ⟨γ, h⟩ := ih
    obtain ⟨g, hg, -⟩ := h.step hS hc hs
    exact ⟨_, hg⟩

/-- The same for an observed run, with a relation between the ghosts and what was observed. -/
theorem Spec.Proved.sound_watched {Ω : Type} {S : Spec T σ ε Op R H G} {cl : Client T σ ε Op R H}
    {watch : Config T σ ε Op R H → T → Config T σ ε Op R H → Ω → Ω}
    {x₀ x : Config T σ ε Op R H} {ω₀ ω : Ω} {γ₀ : T → G} (hS : S.Proved cl)
    (h₀ : S.Holds cl x₀ γ₀) (J : (T → G) → Ω → Prop) (hJ₀ : J γ₀ ω₀)
    (hJ : ∀ x y γ t g ω, S.Holds cl x γ → S.Holds cl y (Function.update γ t g) →
      S.moves t (y.held t) (γ t) g → J γ ω → J (Function.update γ t g) (watch x t y ω))
    (hx : Config.Watched cl S.cond watch x₀ ω₀ x ω) : ∃ γ, S.Holds cl x γ ∧ J γ ω := by
  induction hx with
  | init => exact ⟨γ₀, h₀, hJ₀⟩
  | step _ hc hs ih =>
    obtain ⟨γ, h, hj⟩ := ih
    obtain ⟨g, hg, hm⟩ := h.step hS hc hs
    exact ⟨_, hg, hJ _ _ γ _ g _ h hg hm hj⟩

/-- What the outline claims of a labelled step is true whenever a thread stands before it. -/
theorem Spec.Proved.claims {S : Spec T σ ε Op R H G} {cl : Client T σ ε Op R H}
    {x₀ x : Config T σ ε Op R H} {γ₀ : T → G} (hS : S.Proved cl) (h₀ : S.Holds cl x₀ γ₀)
    (hx : Config.Reach cl S.cond x₀ x) {t : T} (hc : x.Meets S.cond t) {e : ε}
    (he : x.labels t = some e) : S.claim t e x.mem := by
  obtain ⟨γ, h⟩ := hS.sound h₀ hx
  cases hp : x.pc t with
  | none => simp [Config.labels, hp] at he
  | some c =>
    obtain ⟨op, p⟩ := c
    have hb := h.busy t op p hp
    have hpre := h.pre hS hc he
    cases p with
    | act e' f k =>
      obtain rfl : e' = e := by simpa [Config.labels, hp, Prog.next] using he
      exact (hb.2 x.mem γ hpre).1
    | ret r => simp [Config.labels, hp, Prog.next] at he
    | iter body i k => simp [Config.labels, hp, Prog.next] at he

/-! ### Refinement of an abstract state -/

/-- `R` follows every move of the client in an abstract state: the move leaves the abstract state as
    it is or is one abstract step of the same thread. -/
structure Simulates {A : Type} (cl : Client T σ ε Op R H) (x₀ : Config T σ ε Op R H) (a₀ : A)
    (abs : A → T → A → Prop) (Rel : Config T σ ε Op R H → A → Prop) : Prop where
  init : Rel x₀ a₀
  step : ∀ x y a t m, Rel x a → x.step cl t m = some y → ∃ a', (a' = a ∨ abs a t a') ∧ Rel y a'

/-- The ghosts of a proved outline are an abstract state that the client refines. -/
theorem Spec.Proved.simulates {S : Spec T σ ε Op R H G} {cl : Client T σ ε Op R H}
    {x₀ : Config T σ ε Op R H} {γ₀ : T → G} {abs : (T → G) → T → (T → G) → Prop}
    (hS : S.Proved cl) (h₀ : S.Holds cl x₀ γ₀) (hcond : ∀ ℓ t e s, S.cond ℓ t e s)
    (habs : ∀ s s' h γ t g, S.inv s γ → S.inv s' (Function.update γ t g) → S.moves t h (γ t) g →
      g = γ t ∨ abs γ t (Function.update γ t g)) :
    Simulates cl x₀ γ₀ abs (S.Holds cl) where
  init := h₀
  step := by
    intro x y γ t m h hs
    obtain ⟨g, hg, hm⟩ := h.step hS (fun e _ => hcond _ _ e _) hs
    refine ⟨_, ?_, hg⟩
    rcases habs _ _ _ γ t g h.inv hg.inv hm with rfl | ha
    · exact .inl (Function.update_eq_self t γ)
    · exact .inr ha

end Conc
