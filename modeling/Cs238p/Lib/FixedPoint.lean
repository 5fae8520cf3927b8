/-
  Cs238p.Lib.FixedPoint — decimal texts with a fixed number of fraction digits.

  `roundEven` is rounding to the nearest integer, `fixedDigits k n` the last `k` decimal
  digits of `n`. The number of a list of digits is `Nat.ofDigitChars 10`.

  Proved: `fixedDigits` is read back (`ofDigitChars_fixedDigits`), and a fraction times 10^k
  is an integer iff the digits after the `k`-th are zeros (`fraction_integer_iff`).
-/
import Mathlib.Algebra.Order.Floor.Ring
import Mathlib.Data.Rat.Floor
import Mathlib.Tactic.FieldSimp
import Mathlib.Tactic.Linarith

namespace FixedPoint

/-- The nearest integer; of two, the even one. -/
def roundEven (q : ℚ) : ℤ :=
  if q - ⌊q⌋ < 1 / 2 then ⌊q⌋ else if 1 / 2 < q - ⌊q⌋ then ⌊q⌋ + 1 else if ⌊q⌋ % 2 = 0 then ⌊q⌋ else ⌊q⌋ + 1

/-- The last `k` digits of `n`. -/
def fixedDigits : Nat → Nat → List Char
  | 0, _ => []
  | k + 1, n => fixedDigits k (n / 10) ++ [(n % 10).digitChar]

def IsInteger (q : ℚ) : Prop := ∃ n : ℤ, q = n

variable {q : ℚ} {n k : Nat} {l : List Char}

theorem roundEven_intCast (n : ℤ) : roundEven n = n := by
  have hfloor : ⌊(n : ℚ)⌋ = n := Int.floor_intCast n
  rw [roundEven, hfloor, sub_self, if_pos (by norm_num)]

theorem roundEven_nonneg (h : 0 ≤ q) : 0 ≤ roundEven q := by
  have hfloor : 0 ≤ ⌊q⌋ := Int.floor_nonneg.mpr h
  rw [roundEven]
  split_ifs <;> omega

/-- What the rounded number is exact for. -/
theorem roundEven_eq_iff : (roundEven q : ℚ) = q ↔ IsInteger q := by
  constructor
  · intro h
    exact ⟨roundEven q, h.symm⟩
  · rintro ⟨n, rfl⟩
    rw [roundEven_intCast]

theorem isInteger_natCast_add (n : Nat) : IsInteger (n + q) ↔ IsInteger q := by
  constructor
  · rintro ⟨i, hi⟩
    exact ⟨i - n, by push_cast; linarith⟩
  · rintro ⟨i, rfl⟩
    exact ⟨n + i, by push_cast; rfl⟩

/-! ## Digits -/

@[simp] theorem length_fixedDigits (k n : Nat) : (fixedDigits k n).length = k := by
  induction k generalizing n with
  | zero => rfl
  | succ k ih => rw [fixedDigits, List.length_append, ih, List.length_singleton]

theorem isDigit_of_mem_fixedDigits {c : Char} (h : c ∈ fixedDigits k n) : c.isDigit = true := by
  induction k generalizing n with
  | zero => cases h
  | succ k ih =>
    rw [fixedDigits, List.mem_append, List.mem_singleton] at h
    rcases h with h | rfl
    · exact ih h
    · rw [Nat.isDigit_digitChar]
      exact decide_eq_true (Nat.mod_lt _ (by decide))

theorem ofDigitChars_fixedDigits (h : n < 10 ^ k) : Nat.ofDigitChars 10 (fixedDigits k n) 0 = n := by
  induction k generalizing n with
  | zero =>
    rw [Nat.pow_zero, Nat.lt_one_iff] at h
    rw [h]
    rfl
  | succ k ih =>
    have hlt : n / 10 < 10 ^ k := by
      rw [Nat.div_lt_iff_lt_mul (by decide), ← Nat.pow_succ]
      exact h
    rw [fixedDigits, Nat.ofDigitChars_append, ih hlt,
      Nat.ofDigitChars_cons_digitChar_of_lt_ten (Nat.mod_lt _ (by decide)), Nat.ofDigitChars_nil]
    omega

theorem digit_lt {c : Char} (h : c.isDigit = true) : c.toNat - 48 < 10 := by
  simp only [Char.isDigit, Bool.and_eq_true, decide_eq_true_eq] at h
  have hle : c.toNat ≤ 57 := UInt32.le_iff_toNat_le.mp h.2
  omega

theorem digit_eq_zero {c : Char} (h : c.isDigit = true) : c.toNat - 48 = 0 ↔ c = '0' := by
  simp only [Char.isDigit, Bool.and_eq_true, decide_eq_true_eq] at h
  have hge : 48 ≤ c.toNat := UInt32.le_iff_toNat_le.mp h.1
  constructor
  · intro h0
    apply Char.toNat_inj.mp
    change c.toNat = 48
    omega
  · rintro rfl
    rfl

theorem ofDigitChars_lt (h : ∀ c ∈ l, c.isDigit = true) : Nat.ofDigitChars 10 l 0 < 10 ^ l.length := by
  induction l with
  | nil => exact Nat.one_pos
  | cons c l ih =>
    have hc := digit_lt (h c List.mem_cons_self)
    have hl := ih fun d hd => h d (List.mem_cons_of_mem _ hd)
    rw [Nat.ofDigitChars_cons, Nat.ofDigitChars_eq_ofDigitChars_zero, List.length_cons, Nat.pow_succ]
    have hmul : 10 ^ l.length * (10 * 0 + (c.toNat - 48)) ≤ 10 ^ l.length * 9 := Nat.mul_le_mul_left _ (by omega)
    change 10 ^ l.length * (10 * 0 + (c.toNat - 48)) + _ < _
    omega

theorem ofDigitChars_eq_zero (h : ∀ c ∈ l, c.isDigit = true) :
    Nat.ofDigitChars 10 l 0 = 0 ↔ ∀ c ∈ l, c = '0' := by
  induction l with
  | nil => simp
  | cons c l ih =>
    have hc := digit_eq_zero (h c List.mem_cons_self)
    have hl := ih fun d hd => h d (List.mem_cons_of_mem _ hd)
    have hpow : 10 ^ l.length ≠ 0 := Nat.pos_iff_ne_zero.mp (Nat.pow_pos (by decide))
    rw [Nat.ofDigitChars_cons, Nat.ofDigitChars_eq_ofDigitChars_zero, Nat.add_eq_zero_iff, hl, List.forall_mem_cons, ← hc]
    change 10 ^ l.length * (10 * 0 + (c.toNat - 48)) = 0 ∧ _ ↔ _
    rw [Nat.mul_eq_zero, or_iff_right hpow, Nat.mul_zero, Nat.zero_add]

/-! ## Fractions -/

theorem isInteger_div_iff {m : Nat} (hm : m ≠ 0) : IsInteger ((n : ℚ) / m) ↔ m ∣ n := by
  have hq : (m : ℚ) ≠ 0 := Nat.cast_ne_zero.mpr hm
  constructor
  · rintro ⟨i, hi⟩
    rw [div_eq_iff hq] at hi
    have hint : (n : ℤ) = i * m := by exact_mod_cast hi
    exact Int.natCast_dvd_natCast.mp ⟨i, by rw [hint, mul_comm]⟩
  · rintro ⟨i, rfl⟩
    refine ⟨i, ?_⟩
    rw [div_eq_iff hq]
    push_cast
    ring

/-- The first `k` digits of a fraction are before the point; then nothing is left after it iff
    the others are zeros. -/
theorem fraction_integer_iff (h : ∀ c ∈ l, c.isDigit = true) (k : Nat) :
    IsInteger ((Nat.ofDigitChars 10 l 0 : ℚ) / 10 ^ l.length * 10 ^ k) ↔ ∀ c ∈ l.drop k, c = '0' := by
  have hten : ∀ j : Nat, (10 : ℚ) ^ j ≠ 0 := fun j => pow_ne_zero j (by norm_num)
  by_cases hk : l.length ≤ k
  · rw [List.drop_of_length_le hk]
    refine iff_of_true ⟨(Nat.ofDigitChars 10 l 0 * 10 ^ (k - l.length) : Nat), ?_⟩ (by simp)
    obtain ⟨j, rfl⟩ := Nat.exists_eq_add_of_le hk
    rw [Nat.add_sub_cancel_left, pow_add]
    push_cast
    field_simp
  · obtain ⟨d, hd⟩ : ∃ d, l.length = k + d := Nat.exists_eq_add_of_le (by omega)
    have hlen : (l.drop k).length = d := by rw [List.length_drop]; omega
    have hdrop : ∀ c ∈ l.drop k, c.isDigit = true := fun c hc => h c (List.mem_of_mem_drop hc)
    have hlt := ofDigitChars_lt hdrop
    rw [hlen] at hlt
    have hsplit : Nat.ofDigitChars 10 l 0 = 10 ^ d * Nat.ofDigitChars 10 (l.take k) 0 + Nat.ofDigitChars 10 (l.drop k) 0 := by
      conv => lhs; rw [← List.take_append_drop k l]
      rw [Nat.ofDigitChars_append, Nat.ofDigitChars_eq_ofDigitChars_zero, hlen]
    have hshift : (Nat.ofDigitChars 10 l 0 : ℚ) / 10 ^ l.length * 10 ^ k =
        (Nat.ofDigitChars 10 l 0 : ℚ) / (10 ^ d : Nat) := by
      rw [hd, pow_add]
      push_cast
      field_simp
    rw [hshift, isInteger_div_iff (Nat.pos_iff_ne_zero.mp (Nat.pow_pos (by decide))), hsplit,
      Nat.dvd_add_right (Nat.dvd_mul_right _ _), ← ofDigitChars_eq_zero hdrop]
    constructor
    · exact fun hdvd => Nat.eq_zero_of_dvd_of_lt hdvd hlt
    · intro h0
      rw [h0]
      exact Nat.dvd_zero _

end FixedPoint
