/-
  Cs238p.Lib.WrappedProbe — linear probing with a sum that wraps: the slots
  `(k + i) % M % c` for `i < c`, where `c` need not divide `M`.

  Once `k + i` has passed `M` the way goes on from slot 0, whatever slot it had come to. So
  some slots are visited twice and others never: `Skips` says which, in one interval.
  Proved: the slots visited are the ones not skipped (`exists_wrapped_iff`), and at most
  half of the table is skipped (`skipped_le_half`).
-/
import Mathlib.Data.Finset.Card
import Mathlib.Data.Finset.Image
import Mathlib.Order.Interval.Finset.Nat

namespace WrappedProbe

variable {M c k j q : Nat}

/-- Slot `j` is not on the way of `k`. -/
def Skips (M c k j : Nat) : Prop := M < k + c ∧ M % c ≤ j ∧ (c ≤ M → c + k ≤ j + M) ∧ j + M < c + k + M % c

instance (M c k j : Nat) : Decidable (Skips M c k j) := inferInstanceAs (Decidable (_ ∧ _ ∧ _ ∧ _))

/-- Two numbers below each other in `M`'s blocks of `c`. -/
theorem block_le (hq : c * q + j < M) (hr : M % c ≤ j) : c * q + c + M % c ≤ M := by
  have hdm := Nat.div_add_mod M c
  have hlt : c * q < c * (M / c) := by omega
  have hle : c * (q + 1) ≤ c * (M / c) := Nat.mul_le_mul_left c (Nat.lt_of_mul_lt_mul_left hlt)
  rw [Nat.mul_succ] at hle
  omega

theorem not_skips_of_visited {i : Nat} (hi : i < c) (hv : (k + i) % M % c = j) (hk : k < M) :
    ¬ Skips M c k j := by
  rintro ⟨-, hr, hlow, hhigh⟩
  by_cases hwrap : k + i < M
  · -- before the wrap the slot's multiples of `c` stop short of the interval
    rw [Nat.mod_eq_of_lt hwrap] at hv
    have hdm := Nat.div_add_mod (k + i) c
    have hle := @block_le M c j ((k + i) / c) (by omega) hr
    omega
  · by_cases hc : c ≤ M
    · have hu : (k + i) % M = k + i - M := by
        rw [Nat.mod_eq_sub_mod (by omega), Nat.mod_eq_of_lt (by omega)]
      rw [hu, Nat.mod_eq_of_lt (by omega)] at hv
      have := hlow hc
      omega
    · have hlt : (k + i) % M < M := Nat.mod_lt _ (by omega)
      rw [Nat.mod_eq_of_lt (a := M) (by omega)] at hr
      rw [Nat.mod_eq_of_lt (by omega)] at hv
      omega

/-- A slot that is reached before the wrap. -/
theorem visited_before {v : Nat} (hkv : k ≤ v) (hv : v < M) (hvc : v < k + c) (hj : v % c = j) :
    ∃ i < c, (k + i) % M % c = j :=
  ⟨v - k, by omega, by rw [show k + (v - k) = v by omega, Nat.mod_eq_of_lt hv, hj]⟩

/-- A slot that is reached after it. -/
theorem visited_after (hk : k < M) (hjM : j < M) (hj : j < c) (hi : j + M < c + k) : ∃ i < c, (k + i) % M % c = j := by
  refine ⟨j + M - k, by omega, ?_⟩
  rw [show k + (j + M - k) = j + M by omega, Nat.add_mod_right, Nat.mod_eq_of_lt hjM, Nat.mod_eq_of_lt hj]

theorem visited_of_not_skips (hk : k < M) (hj : j < c) (h : ¬ Skips M c k j) : ∃ i < c, (k + i) % M % c = j := by
  have hpos : 0 < c := by omega
  by_cases hwrap : M < k + c
  · have hdm := Nat.div_add_mod M c
    have hrc := Nat.mod_lt M hpos
    have hrM := Nat.mod_le M c
    by_cases hr : M % c ≤ j
    · by_cases hlow : c ≤ M → c + k ≤ j + M
      · -- past the interval: the slot in the block of `c` before the last
        have hhigh : c + k + M % c ≤ j + M := by
          by_contra hlt
          exact h ⟨hwrap, hr, hlow, by omega⟩
        have hcM : c ≤ M := by
          by_contra hlt
          rw [Nat.mod_eq_of_lt (by omega)] at hhigh
          omega
        have hq : 1 ≤ M / c := Nat.div_pos hcM hpos
        have hmul : c * (M / c) = c * (M / c - 1) + c := by
          rw [← Nat.mul_succ, Nat.succ_eq_add_one, Nat.sub_add_cancel hq]
        refine @visited_before M c k j (c * (M / c - 1) + j) (by omega) (by omega) (by omega) ?_
        rw [Nat.mul_add_mod, Nat.mod_eq_of_lt hj]
      · rw [Classical.not_imp] at hlow
        exact visited_after hk (by omega) hj (by omega)
    · by_cases hkv : k ≤ c * (M / c) + j
      · refine @visited_before M c k j (c * (M / c) + j) hkv (by omega) (by omega) ?_
        rw [Nat.mul_add_mod, Nat.mod_eq_of_lt hj]
      · exact visited_after hk (by omega) hj (by omega)
  · have hdm := Nat.div_add_mod k c
    have hmod := Nat.mod_lt k hpos
    by_cases hkj : k % c ≤ j
    · refine @visited_before M c k j (c * (k / c) + j) (by omega) (by omega) (by omega) ?_
      rw [Nat.mul_add_mod, Nat.mod_eq_of_lt hj]
    · refine @visited_before M c k j (c * (k / c + 1) + j) (by rw [Nat.mul_succ]; omega) (by rw [Nat.mul_succ]; omega)
        (by rw [Nat.mul_succ]; omega) ?_
      rw [Nat.mul_add_mod, Nat.mod_eq_of_lt hj]

/-- The slots visited are those that are not skipped. -/
theorem exists_wrapped_iff (hk : k < M) (hj : j < c) : (∃ i < c, (k + i) % M % c = j) ↔ ¬ Skips M c k j :=
  ⟨fun ⟨_, hi, hv⟩ => not_skips_of_visited hi hv hk, visited_of_not_skips hk hj⟩

/-- Without a wrap no slot is skipped. -/
theorem not_skips_of_le (h : k + c ≤ M) : ¬ Skips M c k j := fun hs => absurd hs.1 (Nat.not_lt.mpr h)

/-- Of the `c` slots at most half are skipped. -/
theorem skipped_le_half (hc : c ≤ M) : 2 * ((Finset.range c).filter (Skips M c k)).card ≤ c := by
  have hrc : 0 < c → M % c < c := Nat.mod_lt M
  -- they lie in one interval
  have hsub : (Finset.range c).filter (Skips M c k) ⊆ Finset.Ico (max (M % c) (c + k - M)) (min c (c + k + M % c - M)) := by
    intro j hj
    rw [Finset.mem_filter, Finset.mem_range] at hj
    obtain ⟨hlt, -, hr, hlow, hhigh⟩ := hj
    have := hlow hc
    rw [Finset.mem_Ico]
    omega
  have hcard := Finset.card_le_card hsub
  rw [Nat.card_Ico] at hcard
  by_cases h0 : c = 0
  · subst h0
    simp
  · have hlt := hrc (Nat.pos_of_ne_zero h0)
    omega

end WrappedProbe
