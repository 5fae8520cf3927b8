/-
  Cs238p.Lib.Orbit — following a partial function.

  `orbit f a n` is what `n` steps of `f` from `a` lead to, `none` once a step is undefined.

  Proved: what ends has visited no value twice (`injective_of_ends`); and when `f` is defined
  on finitely many values only, following it without visiting one twice ends, after no more
  steps than there are values and one (`ends_of_injective`).
-/
import Mathlib.Data.Finset.Card
import Mathlib.Order.Interval.Finset.Nat

namespace Orbit

variable {α : Type} {f : α → Option α} {a x y : α} {n m i j : Nat} {S : Finset α}

def orbit (f : α → Option α) (a : α) : Nat → Option α
  | 0 => some a
  | n + 1 => (orbit f a n).bind f

/-- No value is visited twice. -/
def Injective (f : α → Option α) (a : α) : Prop := ∀ i j x, orbit f a i = some x → orbit f a j = some x → i = j

theorem orbit_succ (f : α → Option α) (a : α) (n : Nat) : orbit f a (n + 1) = (orbit f a n).bind f := rfl

/-- The first step first. -/
theorem orbit_succ' (f : α → Option α) (a : α) : ∀ n, orbit f a (n + 1) = (f a).bind fun b => orbit f b n := by
  intro n
  induction n with
  | zero =>
    show f a = (f a).bind some
    rw [Option.bind_fun_some]
  | succ n ih =>
    rw [orbit_succ, ih, Option.bind_assoc]
    rfl

theorem orbit_add (f : α → Option α) (a : α) (n : Nat) : ∀ m,
    orbit f a (n + m) = (orbit f a n).bind fun b => orbit f b m := by
  intro m
  induction m with
  | zero => rw [Nat.add_zero]; exact (Option.bind_fun_some _).symm
  | succ m ih =>
    rw [← Nat.add_assoc, orbit_succ, ih, Option.bind_assoc]
    rfl

/-- Once it has ended it stays so. -/
theorem orbit_none_of_le (h : orbit f a n = none) (hnm : n ≤ m) : orbit f a m = none := by
  obtain ⟨d, rfl⟩ := Nat.le.dest hnm
  rw [orbit_add, h]
  rfl

/-- A value that is visited again is visited for ever. -/
theorem orbit_ne_none_of_eq (hij : i < j) (hi : orbit f a i = some x) (hj : orbit f a j = some x) :
    ∀ n, orbit f a n ≠ none := by
  intro n
  induction n using Nat.strong_induction_on with
  | h n ih =>
    intro hn
    have hlt : j < n := by
      by_contra hle
      have hend := orbit_none_of_le hn (Nat.le_of_not_lt hle)
      rw [hj] at hend
      cases hend
    -- one turn of the cycle earlier it has ended too
    have hback : orbit f a (i + (n - j)) = orbit f a n := by
      rw [orbit_add, hi, ← Nat.add_sub_cancel' hlt.le, orbit_add, hj, Nat.add_sub_cancel_left]
    exact ih (i + (n - j)) (by omega) (hback.trans hn)

theorem injective_of_ends (h : orbit f a n = none) : Injective f a := by
  intro i j x hi hj
  by_contra hne
  rcases Nat.lt_or_gt_of_ne hne with hlt | hlt
  · exact orbit_ne_none_of_eq hlt hi hj n h
  · exact orbit_ne_none_of_eq hlt hj hi n h

/-- With no value visited twice it ends before the values run out. -/
theorem ends_of_injective (hS : ∀ x, f x ≠ none → x ∈ S) (h : Injective f a) : orbit f a (S.card + 1) = none := by
  by_contra hne
  have hsome : ∀ i ≤ S.card + 1, ∃ x, orbit f a i = some x := by
    intro i hi
    refine Option.ne_none_iff_exists'.mp fun hn => hne ?_
    exact orbit_none_of_le hn hi
  have hmem : ∀ i ∈ Finset.range (S.card + 1), (orbit f a i).getD a ∈ S := by
    intro i hi
    have hi := Finset.mem_range.mp hi
    obtain ⟨x, hx⟩ := hsome i (by omega)
    obtain ⟨y, hy⟩ := hsome (i + 1) (by omega)
    rw [orbit_succ, hx] at hy
    rw [hx]
    refine hS x ?_
    intro hn
    rw [Option.bind_some, hn] at hy
    cases hy
  obtain ⟨i, hi, j, hj, hij, he⟩ := Finset.exists_ne_map_eq_of_card_lt_of_maps_to
    (by rw [Finset.card_range]; exact Nat.lt_succ_self _) hmem
  obtain ⟨x, hx⟩ := hsome i (by have := Finset.mem_range.mp hi; omega)
  obtain ⟨y, hy⟩ := hsome j (by have := Finset.mem_range.mp hj; omega)
  rw [hx, hy, Option.getD_some, Option.getD_some] at he
  subst he
  exact hij (h i j x hx hy)

/-- Steps that go down visit no value twice. -/
theorem injective_of_decreasing {f : Nat → Option Nat} {a : Nat} (h : ∀ x y, f x = some y → y < x) : Injective f a := by
  have hlt : ∀ d i x y, orbit f a i = some x → orbit f a (i + (d + 1)) = some y → y < x := by
    intro d
    induction d with
    | zero =>
      intro i x y hx hy
      rw [Nat.zero_add, orbit_succ, hx] at hy
      exact h x y hy
    | succ d ih =>
      intro i x y hx hy
      rw [← Nat.add_assoc, orbit_succ] at hy
      obtain ⟨z, hz, hzy⟩ := Option.bind_eq_some_iff.mp hy
      exact (h z y hzy).trans (ih i x z hx hz)
  intro i j x hi hj
  by_contra hne
  rcases Nat.lt_or_gt_of_ne hne with hij | hij
  · have := hlt (j - i - 1) i x x hi (by rwa [show i + (j - i - 1 + 1) = j by omega])
    omega
  · have := hlt (i - j - 1) j x x hj (by rwa [show j + (i - j - 1 + 1) = i by omega])
    omega

end Orbit
