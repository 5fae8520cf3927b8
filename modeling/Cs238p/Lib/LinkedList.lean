/-
  Cs238p.Lib.LinkedList — singly linked lists in a heap. `next a` is the link of the cell
  at `a`, `none` where there is no cell; a link is `none` at the end of the list. `Linked
  next as`: the cells `as` are there and each one's link is the next of them. The list as a
  whole is then reached from `as.head?`.

  One rule for every change of one link (`Linked.relink`): what followed the cell may be
  replaced by any other linked list. Appending a cell and unlinking one are its cases.
-/
import Mathlib.Logic.Function.Basic

namespace LinkedList

variable {ι : Type} {next next' : ι → Option (Option ι)}

def Linked (next : ι → Option (Option ι)) : List ι → Prop
  | [] => True
  | a :: as => next a = some as.head? ∧ Linked next as

@[simp] theorem linked_nil : Linked next [] := trivial

/-- The rest of a linked list is one. -/
theorem Linked.suffix {as bs : List ι} (h : Linked next (as ++ bs)) : Linked next bs := by
  induction as with
  | nil => exact h
  | cons a as ih => exact ih h.2

/-- Where the link of a cell leads. -/
theorem Linked.next_eq {as bs : List ι} {a : ι} (h : Linked next (as ++ a :: bs)) : next a = some bs.head? :=
  h.suffix.1

/-- Cells elsewhere do not matter. -/
theorem Linked.congr {as : List ι} (h : Linked next as) (hn : ∀ a ∈ as, next' a = next a) : Linked next' as := by
  induction as with
  | nil => exact linked_nil
  | cons a as ih =>
    refine ⟨?_, ih h.2 fun b hb => hn b (List.mem_cons_of_mem a hb)⟩
    rw [hn a List.mem_cons_self]
    exact h.1

/-- The first cell determines the list. -/
theorem Linked.eq_of_head {as bs : List ι} (ha : Linked next as) (hb : Linked next bs) (h : as.head? = bs.head?) :
    as = bs := by
  induction as generalizing bs with
  | nil => exact (List.head?_eq_none_iff.mp h.symm).symm
  | cons a as ih =>
    cases bs with
    | nil => cases h
    | cons b bs =>
      obtain rfl : a = b := Option.some.inj h
      rw [ih ha.2 hb.2 (Option.some.inj (ha.1.symm.trans hb.1))]

/-- Who is last is known by its link. -/
theorem Linked.last {as : List ι} {a : ι} (h : Linked next as) (ha : a ∈ as) (hn : next a = some none) :
    ∃ bs, as = bs ++ [a] := by
  obtain ⟨bs, cs, rfl⟩ := List.append_of_mem ha
  have hc : cs.head? = none := Option.some.inj (h.next_eq.symm.trans hn)
  rw [List.head?_eq_none_iff.mp hc]
  exact ⟨bs, rfl⟩

variable [DecidableEq ι]

/-- The link of `p` is set to another list: what stood before `p` leads there now. -/
theorem Linked.relink {as bs cs : List ι} {p : ι} (h : Linked next (as ++ p :: bs)) (hcs : Linked next cs)
    (hpas : p ∉ as) (hpcs : p ∉ cs) : Linked (Function.update next p (some cs.head?)) (as ++ p :: cs) := by
  induction as with
  | nil =>
    refine ⟨Function.update_self .., hcs.congr fun a ha => Function.update_of_ne ?_ ..⟩
    intro e
    subst e
    exact hpcs ha
  | cons a as ih =>
    obtain ⟨ha, has⟩ := h
    refine ⟨?_, ih has fun hp => hpas (List.mem_cons_of_mem a hp)⟩
    have hne : a ≠ p := fun e => hpas (e ▸ List.mem_cons_self)
    rw [Function.update_of_ne hne, ha]
    cases as with
    | nil => rfl
    | cons b as => rfl

end LinkedList
