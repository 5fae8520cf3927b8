/-
  Cs238p.Lib.Outline — trees and lists that are written out and can be read back.

  `outline d t` are the nodes of a binary tree from left to right, each with its depth when
  the root has depth `d`. `marked m lines` puts a mark before every line, `ended m lines`
  behind it.

  Proved: a tree is determined by its outline, since the root is the one entry of least
  depth (`outline_injective`), and lines without the mark are determined by the marked text
  (`marked_injective`, `ended_injective`).
-/
import Mathlib.Data.Tree.Basic

namespace Outline

variable {α : Type} {p : α → Prop} {x x' y y' : List α} {a a' : α}

/-! ## Where a list is cut -/

/-- At the first element with the property. -/
theorem cut_first (hx : ∀ b ∈ x, ¬ p b) (hx' : ∀ b ∈ x', ¬ p b) (ha : p a) (ha' : p a')
    (h : x ++ a :: y = x' ++ a' :: y') : x = x' ∧ a = a' ∧ y = y' := by
  induction x generalizing x' with
  | nil =>
    cases x' with
    | nil =>
      obtain ⟨h1, h2⟩ := List.cons.inj h
      exact ⟨rfl, h1, h2⟩
    | cons b x' =>
      obtain ⟨rfl, -⟩ := List.cons.inj h
      exact absurd ha (hx' _ List.mem_cons_self)
  | cons b x ih =>
    cases x' with
    | nil =>
      obtain ⟨rfl, -⟩ := List.cons.inj h
      exact absurd ha' (hx _ List.mem_cons_self)
    | cons b' x' =>
      obtain ⟨rfl, hrest⟩ := List.cons.inj h
      obtain ⟨rfl, rfl, rfl⟩ := ih (fun c hc => hx c (List.mem_cons_of_mem _ hc))
        (fun c hc => hx' c (List.mem_cons_of_mem _ hc)) hrest
      exact ⟨rfl, rfl, rfl⟩

/-- At the last one. -/
theorem cut_last (hy : ∀ b ∈ y, ¬ p b) (hy' : ∀ b ∈ y', ¬ p b) (ha : p a) (ha' : p a')
    (h : x ++ a :: y = x' ++ a' :: y') : x = x' ∧ a = a' ∧ y = y' := by
  have hrev : y.reverse ++ a :: x.reverse = y'.reverse ++ a' :: x'.reverse := by
    have := congrArg List.reverse h
    simpa using this
  obtain ⟨h1, h2, h3⟩ := cut_first (fun b hb => hy b (List.mem_reverse.mp hb))
    (fun b hb => hy' b (List.mem_reverse.mp hb)) ha ha' hrev
  exact ⟨List.reverse_inj.mp h3, h2, List.reverse_inj.mp h1⟩

/-- A function that is injective on what two lists have in them. -/
theorem map_eq_of_injOn {β : Type} {f : α → β} (hf : ∀ a ∈ x, ∀ b ∈ y, f a = f b → a = b) (h : x.map f = y.map f) :
    x = y := by
  induction x generalizing y with
  | nil => exact (List.map_eq_nil_iff.mp h.symm).symm
  | cons a x ih =>
    cases y with
    | nil => cases h
    | cons b y =>
      obtain ⟨hab, hrest⟩ := List.cons.inj h
      rw [hf a List.mem_cons_self b List.mem_cons_self hab,
        ih (fun c hc d hd => hf c (List.mem_cons_of_mem _ hc) d (List.mem_cons_of_mem _ hd)) hrest]

/-! ## Trees -/

def outline : Nat → BinaryTree α → List (Nat × α)
  | _, .nil => []
  | d, .node a l r => outline (d + 1) l ++ (d, a) :: outline (d + 1) r

variable {d : Nat} {t u : BinaryTree α}

theorem le_of_mem_outline {e : Nat × α} (h : e ∈ outline d t) : d ≤ e.1 := by
  induction t generalizing d with
  | nil => cases h
  | node a l r ihl ihr =>
    rw [outline] at h
    rcases List.mem_append.mp h with h | h
    · exact Nat.le_of_succ_le (ihl h)
    · rcases List.mem_cons.mp h with rfl | h
      · exact Nat.le_refl _
      · exact Nat.le_of_succ_le (ihr h)

/-- The root is where the depth is least, and what is on its sides are the outlines of its
    subtrees. -/
theorem outline_injective (h : outline d t = outline d u) : t = u := by
  induction t generalizing d u with
  | nil =>
    cases u with
    | nil => rfl
    | node a l r => simp [outline] at h
  | node a l r ihl ihr =>
    cases u with
    | nil => simp [outline] at h
    | node a' l' r' =>
      have hdeep : ∀ (t : BinaryTree α), ∀ e ∈ outline (d + 1) t, ¬ e.1 = d := fun t e he hd => by
        have := le_of_mem_outline he
        omega
      obtain ⟨hl, ha, hr⟩ := cut_first (p := fun e : Nat × α => e.1 = d) (hdeep l) (hdeep l') rfl rfl h
      rw [ihl hl, ihr hr, (Prod.mk.inj ha).2]

/-! ## Lines -/

def marked (m : α) (lines : List (List α)) : List α := lines.flatMap (m :: ·)

variable {m : α} {lines lines' : List (List α)}

theorem marked_injective (hl : ∀ l ∈ lines, m ∉ l) (hl' : ∀ l ∈ lines', m ∉ l) (h : marked m lines = marked m lines') :
    lines = lines' := by
  induction lines generalizing lines' with
  | nil =>
    cases lines' with
    | nil => rfl
    | cons l' lines' => simp [marked] at h
  | cons l lines ih =>
    cases lines' with
    | nil => simp [marked] at h
    | cons l' lines' =>
      -- behind the text a mark is put, so that both lines end at one
      have hend : ∀ l : List α, ∀ ls : List (List α), m :: l ++ marked m ls ++ [m] =
          m :: (l ++ m :: (marked m ls ++ [m]).tail) := fun l ls => by
        cases ls with
        | nil => simp [marked]
        | cons k ls => simp [marked]
      have hboth : m :: l ++ marked m lines ++ [m] = m :: l' ++ marked m lines' ++ [m] := congrArg (· ++ [m]) h
      rw [hend, hend] at hboth
      have hne : ∀ l : List α, m ∉ l → ∀ b ∈ l, ¬ b = m := fun l hm b hb he => hm (he ▸ hb)
      obtain ⟨rfl, -, -⟩ := cut_first (hne l (hl l List.mem_cons_self)) (hne l' (hl' l' List.mem_cons_self)) rfl rfl
        (List.cons.inj hboth).2
      have hrest : marked m lines = marked m lines' := List.append_cancel_left h
      rw [ih (fun k hk => hl k (List.mem_cons_of_mem _ hk)) (fun k hk => hl' k (List.mem_cons_of_mem _ hk)) hrest]

def ended (m : α) (lines : List (List α)) : List α := lines.flatMap (· ++ [m])

theorem cons_ended (m : α) (lines : List (List α)) : m :: ended m lines = marked m lines ++ [m] := by
  induction lines with
  | nil => rfl
  | cons l lines ih =>
    have hmarked : marked m (l :: lines) = m :: l ++ marked m lines := rfl
    have hended : ended m (l :: lines) = l ++ m :: ended m lines := by
      rw [ended, List.flatMap_cons, List.append_assoc]
      rfl
    rw [hmarked, hended, ih]
    simp only [List.cons_append, List.append_assoc]

theorem ended_injective (hl : ∀ l ∈ lines, m ∉ l) (hl' : ∀ l ∈ lines', m ∉ l) (h : ended m lines = ended m lines') :
    lines = lines' := by
  have hmarked : marked m lines ++ [m] = marked m lines' ++ [m] := by rw [← cons_ended, ← cons_ended, h]
  exact marked_injective hl hl' (List.append_cancel_right hmarked)

end Outline
