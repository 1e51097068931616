import Mathlib

/-! A machine word as the set of its bits.

        0 0 1 0 1 1        ones = {0, 1, 3}        setting a bit inserts, clearing one erases -/

namespace Bits

variable {w : ℕ}

/-- The positions of the bits that are set. -/
def ones (v : BitVec w) : Finset ℕ := (Finset.range w).filter fun i => v.getLsbD i = true

@[simp]
theorem mem_ones {v : BitVec w} {i : ℕ} : i ∈ ones v ↔ v.getLsbD i = true := by
  rw [ones, Finset.mem_filter, Finset.mem_range]
  exact ⟨fun h => h.2, fun h => ⟨BitVec.lt_of_getLsbD h, h⟩⟩

theorem ones_inj {v v' : BitVec w} : ones v = ones v' ↔ v = v' := by
  constructor
  · intro h
    apply BitVec.eq_of_getLsbD_eq
    intro i _
    have hi : i ∈ ones v ↔ i ∈ ones v' := by rw [h]
    rw [mem_ones, mem_ones] at hi
    exact Bool.eq_iff_iff.mpr hi
  · rintro rfl
    rfl

@[simp]
theorem ones_zero : ones 0#w = ∅ := by
  ext i
  simp

theorem card_ones_eq_zero {v : BitVec w} : (ones v).card = 0 ↔ v = 0#w := by
  rw [Finset.card_eq_zero, ← ones_zero, ones_inj]

theorem getLsbD_bit {n i : ℕ} (hn : n < w) : (1#w <<< n).getLsbD i = decide (i = n) := by
  rcases lt_trichotomy i n with h | rfl | h
  · have hw : i < w := h.trans hn
    simp [h, h.ne]
  · simp [hn]
  · have hsub : i - n ≠ 0 := by omega
    simp [hsub, h.ne']

theorem getLsbD_setBit (v : BitVec w) {n i : ℕ} (hn : n < w) :
    (v ||| (1#w <<< n)).getLsbD i = if i = n then true else v.getLsbD i := by
  rw [BitVec.getLsbD_or, getLsbD_bit hn]
  split_ifs with h <;> simp [h]

theorem getLsbD_clearBit (v : BitVec w) {n i : ℕ} (hn : n < w) :
    (v &&& ~~~(1#w <<< n)).getLsbD i = if i = n then false else v.getLsbD i := by
  rw [BitVec.getLsbD_and, BitVec.getLsbD_not, getLsbD_bit hn]
  by_cases hi : i < w
  · split_ifs with h <;> simp [h, hi]
  · simp [BitVec.getLsbD_of_ge v i (Nat.le_of_not_lt hi)]

theorem ones_setBit (v : BitVec w) {n : ℕ} (hn : n < w) :
    ones (v ||| (1#w <<< n)) = insert n (ones v) := by
  ext i
  rw [Finset.mem_insert, mem_ones, mem_ones, getLsbD_setBit v hn]
  split_ifs with h <;> simp [h]

/-- Testing one bit. -/
theorem and_bit_eq_zero_iff (v : BitVec w) {n : ℕ} (hn : n < w) :
    v &&& (1#w <<< n) = 0#w ↔ n ∉ ones v := by
  rw [← ones_inj, ones_zero, Finset.eq_empty_iff_forall_notMem]
  constructor
  · intro h hv
    apply h n
    rw [mem_ones, BitVec.getLsbD_and, getLsbD_bit hn]
    simp_all
  · intro h i hi
    rw [mem_ones, BitVec.getLsbD_and, getLsbD_bit hn, Bool.and_eq_true, decide_eq_true_eq] at hi
    obtain ⟨hv, rfl⟩ := hi
    exact h (mem_ones.mpr hv)

/-- Clearing one bit. -/
theorem ones_clearBit (v : BitVec w) {n : ℕ} (hn : n < w) :
    ones (v &&& ~~~(1#w <<< n)) = (ones v).erase n := by
  ext i
  rw [Finset.mem_erase, mem_ones, mem_ones, getLsbD_clearBit v hn]
  split_ifs with h <;> simp [h]

theorem testBit_and_pred {k u j : ℕ} :
    ((2 ^ k * (2 * u + 1)).testBit j && (2 ^ k * (2 * u + 1) - 1).testBit j)
      = ((2 ^ k * (2 * u + 1)).testBit j && decide (j ≠ k)) := by
  have hpos : 0 < 2 ^ k := Nat.two_pow_pos k
  have hv : 2 ^ k * (2 * u + 1) = 2 ^ k * (2 * u + 1) + 0 := rfl
  have hp : 2 ^ k * (2 * u + 1) - 1 = 2 ^ k * (2 * u) + (2 ^ k - 1) := by
    rw [Nat.mul_add]
    omega
  rw [hp, hv, Nat.testBit_two_pow_mul_add _ hpos, Nat.testBit_two_pow_mul_add _ (by omega)]
  rcases Nat.lt_or_ge j k with hlt | hge
  · simp [hlt]
  · rw [if_neg (by omega), if_neg (by omega)]
    obtain ⟨i, rfl⟩ := Nat.exists_eq_add_of_le hge
    cases i with
    | zero => simp
    | succ i => simp [Nat.testBit_succ, Nat.mul_add_div]

/-- `v & (v - 1)` drops the lowest bit. -/
theorem exists_ones_and_pred {v : BitVec w} (hv : v ≠ 0#w) :
    ∃ k ∈ ones v, ones (v &&& (v - 1#w)) = (ones v).erase k := by
  have hne : v.toNat ≠ 0 := by simpa [BitVec.toNat_eq] using hv
  obtain ⟨k, m, ⟨u, rfl⟩, hm⟩ := Nat.exists_eq_two_pow_mul_odd hne
  have hw : 0 < w := by
    rcases Nat.eq_zero_or_pos w with rfl | h
    · exact absurd (BitVec.eq_nil v) (by simpa using hv)
    · exact h
  have hone : (1#w).toNat = 1 := by
    rw [BitVec.toNat_ofNat]
    exact Nat.mod_eq_of_lt (Nat.one_lt_two_pow (by omega))
  have hpred : (v - 1#w).toNat = v.toNat - 1 := by
    rw [BitVec.toNat_sub_of_le (by rw [BitVec.le_def, hone]; omega), hone]
  have hbit : ∀ j, (v &&& (v - 1#w)).getLsbD j = (v.getLsbD j && decide (j ≠ k)) := by
    intro j
    rw [BitVec.getLsbD_and]
    simp only [← BitVec.testBit_toNat]
    rw [hpred, hm]
    exact testBit_and_pred
  refine ⟨k, ?_, ?_⟩
  · rw [mem_ones, ← BitVec.testBit_toNat, hm, ← Nat.add_zero (2 ^ k * (2 * u + 1)),
      Nat.testBit_two_pow_mul_add _ (Nat.two_pow_pos k)]
    simp
  · ext j
    rw [mem_ones, hbit, Finset.mem_erase, mem_ones]
    simp [and_comm]

end Bits
