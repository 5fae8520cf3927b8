/-
  Cs238p.Lib.Fairness — what comes about in an infinite run under strong fairness.

  A run is looked at through properties of its times. `LeadsTo P Q`: after every time with
  `P` there is one with `Q`, or it is one. `StronglyFair enabled taken`: what is enabled
  again and again is taken again and again.

  The rule is `LeadsTo.descend`: `P` stays until `Q`, a measure never rises meanwhile, what
  is taken lowers it, and the taking is enabled again and again.
-/
import Mathlib.Order.Basic
import Mathlib.Data.Nat.Init
import Mathlib.Logic.Relation

namespace Fairness

def LeadsTo (P Q : Nat → Prop) : Prop := ∀ i, P i → ∃ j, i ≤ j ∧ Q j

/-- Again and again. -/
def Often (P : Nat → Prop) : Prop := ∀ i, ∃ j, i ≤ j ∧ P j

def StronglyFair (enabled taken : Nat → Prop) : Prop := Often enabled → Often taken

variable {P Q R enabled taken : Nat → Prop}

/-- What is never enabled from some time on is taken often enough. -/
theorem StronglyFair.of_rest {n : Nat} (h : ∀ i, n ≤ i → ¬ enabled i) : StronglyFair enabled taken := by
  intro hoften
  obtain ⟨i, hi, hen⟩ := hoften n
  exact absurd hen (h i hi)

theorem LeadsTo.of_imp (h : ∀ i, P i → Q i) : LeadsTo P Q := fun i hi => ⟨i, Nat.le_refl i, h i hi⟩

theorem LeadsTo.trans (h : LeadsTo P Q) (h' : LeadsTo Q R) : LeadsTo P R := by
  intro i hi
  obtain ⟨j, hij, hj⟩ := h i hi
  obtain ⟨k, hjk, hk⟩ := h' j hj
  exact ⟨k, Nat.le_trans hij hjk, hk⟩

theorem LeadsTo.or (h : LeadsTo P R) (h' : LeadsTo Q R) : LeadsTo (fun i => P i ∨ Q i) R := by
  intro i hi
  rcases hi with hi | hi
  · exact h i hi
  · exact h' i hi

theorem LeadsTo.mono (h : LeadsTo P Q) (hq : ∀ i, Q i → R i) : LeadsTo P R := h.trans (.of_imp hq)

theorem Often.of_leadsTo (h : LeadsTo P Q) (hp : ∀ i, P i ∨ Q i) : Often Q := by
  intro i
  rcases hp i with hi | hi
  · exact h i hi
  · exact ⟨i, Nat.le_refl i, hi⟩

/-- What stays until `Q` is there whenever `Q` has not been. -/
theorem stays (hkeep : ∀ i, P i → P (i + 1) ∨ Q (i + 1)) {i : Nat} (hi : P i) (hno : ∀ j, i ≤ j → ¬ Q j) :
    ∀ j, i ≤ j → P j := by
  intro j hij
  induction j, hij using Nat.le_induction with
  | base => exact hi
  | succ j hij ih => exact (hkeep j ih).resolve_right (hno _ (Nat.le_trans hij (Nat.le_succ j)))

theorem LeadsTo.meets (hkeep : ∀ i, P i → P (i + 1) ∨ Q (i + 1)) (h : Often R) :
    LeadsTo P fun j => (P j ∧ R j) ∨ Q j := by
  intro i hi
  by_cases hq : ∃ j, i ≤ j ∧ Q j
  · obtain ⟨j, hij, hj⟩ := hq
    exact ⟨j, hij, Or.inr hj⟩
  · obtain ⟨j, hij, hj⟩ := h i
    exact ⟨j, hij, Or.inl ⟨stays hkeep hi (fun k hk hqk => hq ⟨k, hk, hqk⟩) j hij, hj⟩⟩

theorem LeadsTo.fair (hfair : StronglyFair enabled taken) (hkeep : ∀ i, P i → P (i + 1) ∨ Q (i + 1))
    (htake : ∀ i, P i → taken i → Q (i + 1)) (hen : LeadsTo P fun j => enabled j ∨ Q j) : LeadsTo P Q := by
  intro i hi
  by_contra hnone
  have hno : ∀ j, i ≤ j → ¬ Q j := fun j hij hj => hnone ⟨j, hij, hj⟩
  have hp := stays hkeep hi hno
  have hoften : Often enabled := by
    intro n
    obtain ⟨j, hj, he⟩ := hen (max i n) (hp _ (Nat.le_max_left i n))
    refine ⟨j, Nat.le_trans (Nat.le_max_right i n) hj, he.resolve_right (hno j ?_)⟩
    exact Nat.le_trans (Nat.le_max_left i n) hj
  obtain ⟨j, hij, hj⟩ := hfair hoften i
  exact hno (j + 1) (Nat.le_trans hij (Nat.le_succ j)) (htake j (hp j hij) hj)

theorem LeadsTo.by_measure (measure : Nat → Nat)
    (h : ∀ n, LeadsTo (fun i => P i ∧ measure i = n) fun j => (P j ∧ measure j < n) ∨ Q j) : LeadsTo P Q := by
  intro i hi
  induction hn : measure i using Nat.strong_induction_on generalizing i with
  | h n ih =>
    obtain ⟨j, hij, hj⟩ := h n i ⟨hi, hn⟩
    rcases hj with ⟨hp, hlt⟩ | hq
    · obtain ⟨k, hjk, hk⟩ := ih _ hlt j hp rfl
      exact ⟨k, Nat.le_trans hij hjk, hk⟩
    · exact ⟨j, hij, hq⟩

theorem LeadsTo.descend (measure : Nat → Nat) (hfair : StronglyFair enabled taken)
    (hkeep : ∀ i, P i → (P (i + 1) ∧ measure (i + 1) ≤ measure i) ∨ Q (i + 1))
    (htake : ∀ i, P i → taken i → (P (i + 1) ∧ measure (i + 1) < measure i) ∨ Q (i + 1))
    (hen : LeadsTo P fun j => enabled j ∨ Q j) : LeadsTo P Q := by
  refine .by_measure measure fun n => ?_
  refine .fair hfair ?_ ?_ ?_
  · rintro i ⟨hp, rfl⟩
    rcases hkeep i hp with ⟨hp', hle⟩ | hq
    · rcases Nat.lt_or_eq_of_le hle with hlt | he
      · exact Or.inr (Or.inl ⟨hp', hlt⟩)
      · exact Or.inl ⟨hp', he⟩
    · exact Or.inr (Or.inr hq)
  · rintro i ⟨hp, rfl⟩ ht
    exact htake i hp ht
  · intro i hi
    obtain ⟨j, hij, hj⟩ := hen i hi.1
    exact ⟨j, hij, hj.imp_right Or.inr⟩

/-! ## Infinite runs from finite ones -/

variable {α : Type} {step : α → α → Prop} {a b : α}

/-- At each time a step is made, or nothing happens. -/
def IsRun (step : α → α → Prop) (run : Nat → α) : Prop := ∀ i, step (run i) (run (i + 1)) ∨ run (i + 1) = run i

def cons (a : α) (run : Nat → α) : Nat → α
  | 0 => a
  | i + 1 => run i

theorem isRun_const (a : α) : IsRun step fun _ => a := fun _ => Or.inr rfl

/-- A run that steps lead to goes on from them. -/
theorem IsRun.after {run : Nat → α} (h : IsRun step run) (hsteps : Relation.ReflTransGen step a (run 0)) :
    ∃ run' n, IsRun step run' ∧ run' 0 = a ∧ ∀ i, run' (n + i) = run i := by
  induction hsteps using Relation.ReflTransGen.head_induction_on with
  | refl => exact ⟨run, 0, h, rfl, fun i => by rw [Nat.zero_add]⟩
  | @head a c hac _ ih =>
    obtain ⟨run', n, hrun, h0, hafter⟩ := ih
    refine ⟨cons a run', n + 1, ?_, rfl, fun i => ?_⟩
    · intro i
      cases i with
      | zero => exact Or.inl (show step a (run' 0) by rw [h0]; exact hac)
      | succ i => exact hrun i
    · rw [Nat.add_right_comm]
      exact hafter i

end Fairness
