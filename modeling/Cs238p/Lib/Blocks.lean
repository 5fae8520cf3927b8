/-
  Cs238p.Lib.Blocks — allocated blocks and an allocator that may do anything it is allowed to.

  An `Allocator` places each request at an address that no allocated block has, or refuses
  it. A `Heap` is the allocated addresses with the contents of their blocks.

  `Grown P h h' S`: `h'` is `h` with the new blocks `S`, whose contents meet `P`.
-/
import Mathlib.Data.Finset.Basic
import Mathlib.Data.Finset.Lattice.Lemmas

namespace Blocks

structure Allocator where
  /-- The address for a request, from its number and the allocated addresses; `none` refuses. -/
  place : Nat → Finset Nat → Option Nat
  fresh : ∀ {n : Nat} {live : Finset Nat} {a : Nat}, place n live = some a → a ∉ live

/-- There is a request that it refuses. -/
def Allocator.Refuses (A : Allocator) : Prop := ∃ n live, A.place n live = none

structure Heap (α : Type) where
  live : Finset Nat
  cell : Nat → α
  requests : Nat
  refused : Nat

variable {α : Type}

namespace Heap

/-- `malloc`, with what is stored in the new block. -/
def malloc (A : Allocator) (h : Heap α) (x : α) : Option Nat × Heap α :=
  match A.place h.requests h.live with
  | none => (none, { h with requests := h.requests + 1, refused := h.refused + 1 })
  | some a =>
    (some a, { h with live := insert a h.live, cell := Function.update h.cell a x, requests := h.requests + 1 })

/-- `realloc`, with what is stored in the block: it may move. -/
def realloc (A : Allocator) (h : Heap α) (old : Option Nat) (x : α) : Option Nat × Heap α :=
  match A.place h.requests (old.elim h.live h.live.erase) with
  | none => (none, { h with requests := h.requests + 1, refused := h.refused + 1 })
  | some a =>
    (some a, { h with
      live := insert a (old.elim h.live h.live.erase)
      cell := Function.update h.cell a x
      requests := h.requests + 1 })

def free (h : Heap α) (a : Nat) : Heap α := { h with live := h.live.erase a }

def set (h : Heap α) (a : Nat) (x : α) : Heap α := { h with cell := Function.update h.cell a x }

@[simp] theorem live_free (h : Heap α) (a : Nat) : (h.free a).live = h.live.erase a := rfl
@[simp] theorem cell_free (h : Heap α) (a : Nat) : (h.free a).cell = h.cell := rfl
@[simp] theorem refused_free (h : Heap α) (a : Nat) : (h.free a).refused = h.refused := rfl
@[simp] theorem cell_set_same (h : Heap α) (a : Nat) (x : α) : (h.set a x).cell a = x := Function.update_self ..

theorem cell_set_ne (h : Heap α) {a b : Nat} (x : α) (hne : b ≠ a) : (h.set a x).cell b = h.cell b :=
  Function.update_of_ne hne _ _

end Heap

structure Grown (P : α → Prop) (h h' : Heap α) (S : Finset Nat) : Prop where
  live : h'.live = h.live ∪ S
  apart : Disjoint h.live S
  cell : ∀ a ∈ h.live, h'.cell a = h.cell a
  content : ∀ a ∈ S, P (h'.cell a)
  refused : h.refused ≤ h'.refused

variable {P : α → Prop} {h h' h'' : Heap α} {S T : Finset Nat} {a : Nat} {x : α}

theorem Grown.refl (P : α → Prop) (h : Heap α) : Grown P h h ∅ :=
  ⟨(Finset.union_empty _).symm, Finset.disjoint_empty_right _, fun _ _ => rfl, fun _ h => absurd h (Finset.notMem_empty _),
    Nat.le_refl _⟩

theorem Grown.imp {Q : α → Prop} (hg : Grown P h h' S) (hc : ∀ a ∈ S, Q (h'.cell a)) : Grown Q h h' S :=
  ⟨hg.live, hg.apart, hg.cell, hc, hg.refused⟩

theorem Grown.mem (hg : Grown P h h' S) (ha : a ∈ h.live) : a ∈ h'.live := by
  rw [hg.live]
  exact Finset.mem_union_left _ ha

theorem Grown.mem_new (hg : Grown P h h' S) (ha : a ∈ S) : a ∈ h'.live := by
  rw [hg.live]
  exact Finset.mem_union_right _ ha

theorem Grown.not_mem (hg : Grown P h h' S) (ha : a ∈ h.live) : a ∉ S := fun hs =>
  Finset.disjoint_left.mp hg.apart ha hs

theorem Grown.trans (h1 : Grown P h h' S) (h2 : Grown P h' h'' T) : Grown P h h'' (S ∪ T) := by
  have hT : Disjoint (h.live ∪ S) T := by
    rw [← h1.live]
    exact h2.apart
  refine ⟨?_, ?_, fun a ha => ?_, fun a ha => ?_, Nat.le_trans h1.refused h2.refused⟩
  · rw [h2.live, h1.live, Finset.union_assoc]
  · exact Finset.disjoint_union_right.mpr ⟨h1.apart, (Finset.disjoint_union_left.mp hT).1⟩
  · rw [h2.cell a (h1.mem ha), h1.cell a ha]
  · rcases Finset.mem_union.mp ha with ha | ha
    · rw [h2.cell a (h1.mem_new ha)]
      exact h1.content a ha
    · exact h2.content a ha

/-- What is stored in a new block. -/
theorem Grown.set (hg : Grown P h h' S) (ha : a ∈ S) (hx : P x) : Grown P h (h'.set a x) S := by
  refine ⟨hg.live, hg.apart, fun b hb => ?_, fun b hb => ?_, hg.refused⟩
  · have hne : b ≠ a := fun he => hg.not_mem hb (by rw [he]; exact ha)
    rw [Heap.cell_set_ne _ _ hne]
    exact hg.cell b hb
  · by_cases he : b = a
    · subst he
      rw [Heap.cell_set_same]
      exact hx
    · rw [Heap.cell_set_ne _ _ he]
      exact hg.content b hb

theorem Grown.free (hg : Grown P h h' S) (ha : a ∈ S) : Grown P h (h'.free a) (S.erase a) := by
  have hnot : a ∉ h.live := fun hb => hg.not_mem hb ha
  refine ⟨?_, hg.apart.mono_right (Finset.erase_subset _ _), hg.cell, fun b hb => hg.content b (Finset.mem_of_mem_erase hb),
    hg.refused⟩
  rw [Heap.live_free, hg.live, Finset.erase_union_distrib, Finset.erase_eq_of_notMem hnot]

/-- `malloc` refuses, or makes a block. -/
theorem malloc_cases (A : Allocator) (P : α → Prop) (h : Heap α) (hx : P x) :
    (∃ h', h.malloc A x = (none, h') ∧ A.Refuses ∧ Grown P h h' ∅ ∧ h'.refused = h.refused + 1) ∨
    ∃ a h', h.malloc A x = (some a, h') ∧ Grown P h h' {a} ∧ h'.cell a = x ∧ h'.refused = h.refused := by
  cases hp : A.place h.requests h.live with
  | none =>
    refine Or.inl ⟨{ h with requests := h.requests + 1, refused := h.refused + 1 }, by rw [Heap.malloc, hp], ⟨_, _, hp⟩, ?_, rfl⟩
    have hg := Grown.refl P h
    exact ⟨hg.live, hg.apart, hg.cell, hg.content, Nat.le_succ _⟩
  | some a =>
    have ha := A.fresh hp
    refine Or.inr ⟨a, { h with
      live := insert a h.live, cell := Function.update h.cell a x, requests := h.requests + 1 }, by rw [Heap.malloc, hp], ?_,
      Function.update_self .., rfl⟩
    refine ⟨Finset.insert_eq .. |>.trans (Finset.union_comm ..), Finset.disjoint_singleton_right.mpr ha, fun b hb => ?_,
      fun b hb => ?_, Nat.le_refl _⟩
    · exact Function.update_of_ne (fun he : b = a => ha (by rw [← he]; exact hb)) _ _
    · rw [Finset.mem_singleton.mp hb]
      show P (Function.update h.cell a x a)
      rw [Function.update_self]
      exact hx

/-- `realloc` of a new block. -/
theorem realloc_cases (A : Allocator) (hx : P x) (hg : Grown P h h' S) {old : Option Nat} (hold : ∀ a ∈ old, a ∈ S) :
    (∃ h'', h'.realloc A old x = (none, h'') ∧ A.Refuses ∧ Grown P h h'' S ∧ h''.refused = h'.refused + 1) ∨
    ∃ a h'', h'.realloc A old x = (some a, h'') ∧ Grown P h h'' (insert a (old.elim S S.erase)) ∧ h''.refused = h'.refused := by
  have hrest : Grown P h { h' with live := old.elim h'.live h'.live.erase } (old.elim S S.erase) := by
    cases old with
    | none => exact hg
    | some b => exact hg.free (hold b rfl)
  cases hp : A.place h'.requests (old.elim h'.live h'.live.erase) with
  | none =>
    refine Or.inl ⟨{ h' with requests := h'.requests + 1, refused := h'.refused + 1 }, by rw [Heap.realloc, hp], ⟨_, _, hp⟩, ?_, rfl⟩
    exact ⟨hg.live, hg.apart, hg.cell, hg.content, Nat.le_succ_of_le hg.refused⟩
  | some a =>
    have hmalloc := malloc_cases A P { h' with live := old.elim h'.live h'.live.erase } hx
    rw [Heap.malloc, hp] at hmalloc
    obtain ⟨_, h1, -⟩ | ⟨b, h'', h1, hb, -, hr⟩ := hmalloc
    · cases h1
    · cases h1
      refine Or.inr ⟨a, { h' with
        live := insert a (old.elim h'.live h'.live.erase)
        cell := Function.update h'.cell a x
        requests := h'.requests + 1 }, by rw [Heap.realloc, hp], ?_, rfl⟩
      have hboth := hrest.trans hb
      rwa [Finset.union_comm, ← Finset.insert_eq] at hboth

end Blocks
