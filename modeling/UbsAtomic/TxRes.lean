import Mathlib.Algebra.BigOperators.Fin
import UbsAtomic.Conc.Machine

/-! The distributed transaction resource (`ub_dist_tx_res.cpp`): a 64-bit number in shared memory
    that all processes change by single atomic instructions.

        ub_dist_tx_res_fetch_add(v):    [ n ] ──▶ [ n + v ]     *out_val := n     (mod 2^64)

    A handle is an address, `0` is NULL. What a call writes through its other pointers, which are
    the caller's own variables, is its result; `none` is `UB_RES_ERROR`. -/

namespace UbsAtomic

open Conc Conc.Prog

namespace TxRes

abbrev Word := BitVec 64

abbrev Call := Prog (ℕ → Word) Unit

def uint64Align : ℕ := 8

/-- The checks all calls begin with; `others`: no pointer besides the handle is NULL. -/
def checked {α : Type} (handle : ℕ) (others : Bool) (body : Call α) : Call (Option α) := do
  if handle = 0 ∨ others = false then
    return none
  if handle % uint64Align ≠ 0 then
    return none
  return some (← body)

/-- `ub_dist_tx_res_add`. -/
def add (handle : ℕ) (value : Word) : Call (Option Unit) :=
  checked handle true do
    let _ ← fetch (.cell handle) (· + value)

/-- `ub_dist_tx_res_fetch_add`. -/
def fetchAdd (handle : ℕ) (value : Word) (outVal : Bool) : Call (Option Word) :=
  checked handle outVal (fetch (.cell handle) (· + value))

/-! ### A number that many parties add to -/

inductive Op where
  | add (value : Word)
  | fetchAdd (value : Word)

def Op.value : Op → Word
  | .add v | .fetchAdd v => v

/-- What a party has asked for in all, and the ranges (old value, length) it was given. -/
structure Past where
  asked : ℕ
  got : List (ℕ × ℕ)

/-- Every party may add at any time. -/
def client (ι : Type) (handle : ℕ) : Client ι (ℕ → Word) Unit Op (Option Word) Past where
  code
    | _, .add v => do
      let r ← add handle v
      return r.map fun _ => 0
    | _, .fetchAdd v => fetchAdd handle v true
  allowed := fun _ _ _ => true
  start h op := { h with asked := h.asked + op.value.toNat }
  finish
    | h, .fetchAdd v, some old => { h with got := (old.toNat, v.toNat) :: h.got }
    | h, _, _ => h

variable {ι : Type} [DecidableEq ι] [Fintype ι] {handle n : ℕ} {s : ℕ → Word}

/-- What a party has added, and the ranges it added, as counted from `n`. -/
structure Ghost where
  sum : ℕ
  mine : List (ℕ × ℕ)

/-- No number is in both ranges. -/
def Apart (p q : ℕ × ℕ) : Prop := p.1 + p.2 ≤ q.1 ∨ q.1 + q.2 ≤ p.1

/-- All ranges in the order in which they were added, the last one first. -/
structure Inv (handle n : ℕ) (s : ℕ → Word) (γ : ι → Ghost) (log : List (ι × ℕ × ℕ)) : Prop where
  value : s handle = BitVec.ofNat 64 (n + ∑ i, (γ i).sum)
  below : ∀ p ∈ log, p.2.1 + p.2.2 ≤ ∑ i, (γ i).sum
  apart : log.Pairwise fun p q => Apart p.2 q.2
  mine : ∀ i, (γ i).mine = (log.filter (·.1 = i)).map Prod.snd

def spec (ι : Type) [DecidableEq ι] [Fintype ι] (handle n : ℕ) :
    Spec ι (ℕ → Word) Unit Op (Option Word) Past Ghost where
  inv s γ := ∃ log, Inv handle n s γ log
  lab := fun _ _ => True
  cond := fun _ _ _ _ => True
  claim := fun _ _ _ => True
  rest := fun _ h g => g.sum = h.asked ∧
    h.got.Sublist (g.mine.map fun r => ((n + r.1) % 2 ^ 64, r.2))
  moves := fun _ _ _ _ => True
  good := fun _ _ _ _ => True

/-- The atomic addition: the new range begins where all the others end. -/
theorem Inv.fetch {γ : ι → Ghost} {log : List (ι × ℕ × ℕ)} (h : Inv handle n s γ log) (i : ι)
    (v : Word) :
    Inv handle n (Function.update s handle (s handle + v)) (Function.update γ i
      ⟨(γ i).sum + v.toNat, (∑ j, (γ j).sum, v.toNat) :: (γ i).mine⟩)
      ((i, ∑ j, (γ j).sum, v.toNat) :: log) := by
  have hsum : ∀ mine, ∑ j, (Function.update γ i ⟨(γ i).sum + v.toNat, mine⟩ j).sum
      = ∑ j, (γ j).sum + v.toNat := by
    intro mine
    simp only [Function.apply_update fun _ => Ghost.sum]
    rw [Finset.sum_update_of_mem (Finset.mem_univ i), ← Finset.erase_eq,
      ← Finset.add_sum_erase _ _ (Finset.mem_univ i)]
    omega
  refine ⟨?_, ?_, List.pairwise_cons.mpr ⟨fun p hp => .inr (h.below p hp), h.apart⟩, ?_⟩
  · rw [Function.update_self, hsum, h.value, ← Nat.add_assoc, BitVec.ofNat_add _ v.toNat,
      BitVec.ofNat_toNat, BitVec.setWidth_eq]
  · rw [hsum]
    exact List.forall_mem_cons.mpr
      ⟨le_rfl, fun p hp => (h.below p hp).trans (Nat.le_add_right _ _)⟩
  · rw [Function.forall_update_iff γ fun j g => g.mine = _]
    exact ⟨by simp [h.mine], fun j hj => by simp [h.mine, hj.symm]⟩

theorem proved (h₀ : handle ≠ 0) (halign : handle % uint64Align = 0) :
    (spec ι handle n).Proved (client ι handle) where
  stay _ _ _ _ _ := trivial
  idle _ _ _ _ := ⟨trivial, trivial⟩
  start _ _ _ _ _ _ := trivial
  call i h op g _ hr := by
    obtain ⟨hsum, hgot⟩ := hr
    cases op with
    | add v =>
      simp only [client, add, checked, h₀, halign]
      refine ⟨trivial, fun s γ hpre => ⟨trivial, fun _ _ _ hf => ?_⟩⟩
      obtain ⟨⟨_, hi⟩, hg, -⟩ := hpre
      cases hf
      refine ⟨_, trivial, ⟨_, hi.fetch i v⟩, trivial, trivial, ?_, ?_⟩
      · simp [hg, hsum, Op.value]
      · simpa [hg] using hgot.cons _
    | fetchAdd v =>
      simp only [client, fetchAdd, checked, h₀, halign]
      refine ⟨trivial, fun s γ hpre => ⟨trivial, fun _ _ _ hf => ?_⟩⟩
      obtain ⟨⟨_, hi⟩, hg, -⟩ := hpre
      cases hf
      refine ⟨_, trivial, ⟨_, hi.fetch i v⟩, trivial, trivial, ?_, ?_⟩
      · simp [hg, hsum, Op.value]
      · simpa [hg, hi.value] using hgot

/-- Whenever nobody is in a call, the number is what it was plus everything that was asked for. As
    long as that fits into 64 bits, no two calls were given ranges with a number in common. -/
theorem adds_exact (h₀ : handle ≠ 0) (halign : handle % uint64Align = 0)
    {x : Config ι (ℕ → Word) Unit Op (Option Word) Past}
    (hx : Config.Reachable (client ι handle) ⟨s, fun _ => ⟨0, []⟩, fun _ => none⟩ x)
    (hq : x.Quiescent) :
    x.mem handle = s handle + BitVec.ofNat 64 (∑ i, (x.held i).asked) ∧
      ((s handle).toNat + ∑ i, (x.held i).asked < 2 ^ 64 →
        (∀ i, (x.held i).got.Pairwise Apart) ∧
          ∀ i j, i ≠ j → ∀ r ∈ (x.held i).got, ∀ r' ∈ (x.held j).got, Apart r r') := by
  have hinit : (spec ι handle (s handle).toNat).Holds (client ι handle)
      ⟨s, fun _ => ⟨0, []⟩, fun _ => none⟩ fun _ => ⟨0, []⟩ :=
    ⟨⟨[], by simp, by simp, .nil, by simp⟩, fun _ => ⟨⟨0, []⟩, trivial⟩, fun _ _ => ⟨rfl, .slnil⟩,
      by simp⟩
  obtain ⟨γ, hγ⟩ := (proved h₀ halign).sound hinit hx
  have hasked : ∑ i, (x.held i).asked = ∑ i, (γ i).sum :=
    Finset.sum_congr rfl fun i _ => (hγ.idle i (hq i)).1.symm
  obtain ⟨log, hlog⟩ := hγ.inv
  have hval := hlog.value
  rw [hasked]
  refine ⟨by simpa [BitVec.ofNat_add] using hval, fun hfit => ?_⟩
  -- nothing has wrapped, so a party was told its range as it is
  have hgot : ∀ i, (x.held i).got.Sublist
      ((log.filter (·.1 = i)).map fun p => ((s handle).toNat + p.2.1, p.2.2)) := by
    intro i
    convert (hγ.idle i (hq i)).2 using 1
    rw [hlog.mine, List.map_map]
    refine List.map_congr_left fun p hp => ?_
    have hbelow := hlog.below p (List.mem_of_mem_filter hp)
    simp only [Function.comp]
    rw [Nat.mod_eq_of_lt (by omega)]
  have hshift : ∀ k r r', Apart r r' → Apart (k + r.1, r.2) (k + r'.1, r'.2) := by
    intro k r r' h
    unfold Apart at *
    dsimp only
    omega
  refine ⟨fun i => ((hlog.apart.filter _).map _ fun p q => hshift _ p.2 q.2).sublist (hgot i), ?_⟩
  intro i j hij r hr r' hr'
  obtain ⟨p, hp, rfl⟩ := List.mem_map.mp ((hgot i).subset hr)
  obtain ⟨q, hq, rfl⟩ := List.mem_map.mp ((hgot j).subset hr')
  rw [List.mem_filter, decide_eq_true_eq] at hp hq
  have hsymm : Std.Symm fun p q : ι × ℕ × ℕ => Apart p.2 q.2 := ⟨fun _ _ => Or.symm⟩
  refine hshift _ _ _ (hlog.apart.forall hp.1 hq.1 ?_)
  rintro rfl
  exact hij (hp.2.symm.trans hq.2)

theorem adds_exact_two : ∃ x : Config (Fin 2) (ℕ → Word) Unit Op (Option Word) Past,
    (x.held 0).got = [(7, 3)] ∧ (x.held 1).got = [(5, 2)] ∧ x.mem 64 = 10 := by
  have hrun : ∃ x, Config.Reachable (client (Fin 2) 64)
      ⟨fun _ => 5, fun _ => ⟨0, []⟩, fun _ => none⟩ x ∧ (∀ t, (x.pc t).isNone) ∧
      ∑ i, (x.held i).asked = 5 ∧ (x.held 0).got = [(7, 3)] ∧ (x.held 1).got = [(5, 2)] :=
    Config.reachable_of_runAll [.call 0 (.fetchAdd 3), .call 1 (.fetchAdd 2), .finish 1, .finish 0]
      (by decide +kernel)
  obtain ⟨x, hx, hp⟩ := hrun
  have h := (adds_exact (by decide) (by decide) hx fun t => by simpa using hp.1 t).1
  rw [hp.2.1] at h
  exact ⟨x, hp.2.2.1, hp.2.2.2, h⟩

end TxRes

end UbsAtomic
