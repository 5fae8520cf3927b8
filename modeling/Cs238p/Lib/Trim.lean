/-
  Cs238p.Lib.Trim — blanks at both ends of a list are dropped.

  `p` says which elements are blank. A list is `x ++ t ++ y` with blanks `x` and `y` and a
  `Trimmed` list `t` in one way (`trim_eq`); everything else about `trim` follows.

  `pieces p n l`: the list is cut into blocks of `n` elements, and what trimming leaves of
  each is kept when there is something. Proved: this is what trimming leaves of the list
  exactly when all that is not blank lies in one block (`pieces_eq`, `lt_pieces`).
-/
import Mathlib.Data.List.DropRight

namespace Trimming

variable {α : Type} (p : α → Bool)

def trim (l : List α) : List α := (l.rdropWhile p).drop (l.takeWhile p).length

def Blank (l : List α) : Prop := ∀ a ∈ l, p a = true

/-- Neither the first nor the last element is blank. -/
def Trimmed (l : List α) : Prop := ∀ a, l.head? = some a ∨ l.getLast? = some a → p a = false

instance (l : List α) : Decidable (Blank p l) := inferInstanceAs (Decidable (∀ a ∈ l, p a = true))

variable {p} {l x y t : List α}

/-! ## Blanks -/

@[simp] theorem blank_nil : Blank p [] := fun _ h => absurd h List.not_mem_nil

@[simp] theorem blank_append : Blank p (x ++ y) ↔ Blank p x ∧ Blank p y := List.forall_mem_append

theorem rdropWhile_append_blank (hy : Blank p y) : (l ++ y).rdropWhile p = l.rdropWhile p := by
  rw [List.rdropWhile, List.reverse_append, List.dropWhile_append_of_pos fun a ha => hy a (List.mem_reverse.mp ha)]
  rfl

theorem rdropWhile_trimmed (ht : Trimmed p t) (hne : t ≠ []) : (x ++ t).rdropWhile p = x ++ t := by
  rw [List.rdropWhile_eq_self_iff]
  intro hl
  rw [List.getLast_append_of_ne_nil _ hne, ht _ (Or.inr (List.getLast?_eq_some_getLast hne))]
  exact Bool.false_ne_true

theorem takeWhile_trimmed (hx : Blank p x) (ht : Trimmed p t) (hne : t ≠ []) :
    (x ++ (t ++ y)).takeWhile p = x := by
  rw [List.takeWhile_append_of_pos hx]
  obtain ⟨a, t, rfl⟩ := List.exists_cons_of_ne_nil hne
  rw [List.cons_append, List.takeWhile_cons_of_neg (by rw [ht a (Or.inl rfl)]; exact Bool.false_ne_true),
    List.append_nil]

/-- The middle of a list between blanks. -/
theorem trim_eq (hx : Blank p x) (ht : Trimmed p t) (hy : Blank p y) : trim p (x ++ (t ++ y)) = t := by
  by_cases hne : t = []
  · subst hne
    have hall : Blank p (x ++ ([] ++ y)) := blank_append.mpr ⟨hx, hy⟩
    rw [trim, List.rdropWhile_eq_nil_iff.mpr hall, List.drop_nil]
  · rw [trim, takeWhile_trimmed hx ht hne, ← List.append_assoc, rdropWhile_append_blank hy, rdropWhile_trimmed ht hne,
      List.drop_left]

/-- There is such a middle. -/
theorem exists_trimmed (l : List α) : ∃ x t y, l = x ++ (t ++ y) ∧ Blank p x ∧ Trimmed p t ∧ Blank p y := by
  have hfront : l = l.takeWhile p ++ l.dropWhile p := List.takeWhile_append_dropWhile.symm
  have hback : l.dropWhile p = (l.dropWhile p).rdropWhile p ++ (l.dropWhile p).rtakeWhile p :=
    List.rdropWhile_append_rtakeWhile.symm
  refine ⟨l.takeWhile p, (l.dropWhile p).rdropWhile p, (l.dropWhile p).rtakeWhile p, ?_, ?_, ?_, ?_⟩
  · rw [← hback, ← hfront]
  · exact fun a ha => List.mem_takeWhile_imp ha
  · rintro a (ha | ha)
    · -- what is first after the front is first in the middle
      have hne : (l.dropWhile p).rdropWhile p ≠ [] := by rintro h0; rw [h0] at ha; cases ha
      have hhead : (l.dropWhile p).head? = some a := by
        rw [hback, List.head?_append_of_ne_nil _ hne]
        exact ha
      have hnot := List.head?_dropWhile_not p l
      rw [hhead] at hnot
      exact hnot
    · obtain ⟨hne, rfl⟩ := List.mem_getLast?_eq_getLast ha
      simpa using List.rdropWhile_last_not p (l.dropWhile p) hne
  · exact fun a ha => List.mem_rtakeWhile_imp ha

/-! ## Trimming -/

theorem trimmed_trim (l : List α) : Trimmed p (trim p l) := by
  obtain ⟨x, t, y, rfl, hx, ht, hy⟩ := exists_trimmed (p := p) l
  rwa [trim_eq hx ht hy]

theorem trim_of_trimmed (ht : Trimmed p t) : trim p t = t := by
  simpa using trim_eq (x := []) (y := []) blank_nil ht blank_nil

theorem trim_trim (l : List α) : trim p (trim p l) = trim p l := trim_of_trimmed (trimmed_trim l)

theorem mem_of_mem_trim {a : α} (h : a ∈ trim p l) : a ∈ l := by
  obtain ⟨x, t, y, rfl, hx, ht, hy⟩ := exists_trimmed (p := p) l
  rw [trim_eq hx ht hy] at h
  simp [h]

theorem trim_length_le (l : List α) : (trim p l).length ≤ l.length := by
  obtain ⟨x, t, y, rfl, hx, ht, hy⟩ := exists_trimmed (p := p) l
  rw [trim_eq hx ht hy]
  simp only [List.length_append]
  omega

theorem trimmed_nil : Trimmed p ([] : List α) := by
  rintro a (h | h) <;> cases h

theorem trimmed_append (hx : Trimmed p x) (hne : x ≠ []) (hy : Trimmed p y) : Trimmed p (x ++ y) := by
  rintro a (ha | ha)
  · rw [List.head?_append_of_ne_nil _ hne] at ha
    exact hx a (Or.inl ha)
  · by_cases hnil : y = []
    · rw [hnil, List.append_nil] at ha
      exact hx a (Or.inr ha)
    · rw [List.getLast?_append_of_ne_nil _ hnil] at ha
      exact hy a (Or.inr ha)

theorem trim_blank_append (hx : Blank p x) (l : List α) : trim p (x ++ l) = trim p l := by
  obtain ⟨x', t, y, rfl, hx', ht, hy⟩ := exists_trimmed (p := p) l
  rw [trim_eq hx' ht hy, ← List.append_assoc, trim_eq (blank_append.mpr ⟨hx, hx'⟩) ht hy]

theorem trim_append_blank (hy : Blank p y) (l : List α) : trim p (l ++ y) = trim p l := by
  obtain ⟨x, t, y', rfl, hx, ht, hy'⟩ := exists_trimmed (p := p) l
  rw [trim_eq hx ht hy', List.append_assoc, List.append_assoc, trim_eq hx ht (blank_append.mpr ⟨hy', hy⟩)]

theorem trim_eq_nil : trim p l = [] ↔ Blank p l := by
  constructor
  · intro h
    obtain ⟨x, t, y, rfl, hx, ht, hy⟩ := exists_trimmed (p := p) l
    rw [trim_eq hx ht hy] at h
    subst h
    exact blank_append.mpr ⟨hx, hy⟩
  · intro h
    simpa using trim_eq (t := []) (y := []) h trimmed_nil blank_nil

/-! ## Blocks -/

section Pieces

variable (p)

/-- What trimming leaves, if there is something. -/
def piece (l : List α) : List (List α) := if trim p l = [] then [] else [trim p l]

/-- The pieces of the blocks of `n` elements (`n` is not 0). -/
def pieces (n : Nat) (l : List α) : List (List α) :=
  if _h : l.length ≤ n ∨ n = 0 then piece p l else piece p (l.take n) ++ pieces n (l.drop n)
termination_by l.length
decreasing_by
  rw [List.length_drop]
  omega

/-- All that is not blank is in one block. -/
def OneBlock (n : Nat) (l : List α) : Prop :=
  ∃ k, ∀ (i : Nat) (h : i < l.length), p l[i] = false → i / n = k

variable {p} {n : Nat}

theorem piece_blank (h : Blank p l) : piece p l = [] := if_pos (trim_eq_nil.mpr h)

theorem piece_length_le (l : List α) : (piece p l).length ≤ 1 := by
  unfold piece
  split <;> simp

theorem length_piece (h : ¬ Blank p l) : (piece p l).length = 1 := by
  rw [piece, if_neg (fun h0 => h (trim_eq_nil.mp h0))]
  rfl

theorem pieces_short (h : l.length ≤ n) : pieces p n l = piece p l := by
  rw [pieces, dif_pos (Or.inl h)]

theorem pieces_long (hn : 0 < n) (h : n < l.length) : pieces p n l = piece p (l.take n) ++ pieces p n (l.drop n) := by
  rw [pieces, dif_neg (by omega)]

/-- By blocks. -/
theorem block_induction {P : List α → Prop} (hn : 0 < n) (short : ∀ l : List α, l.length ≤ n → P l)
    (long : ∀ l : List α, n < l.length → P (l.drop n) → P l) (l : List α) : P l := by
  induction hk : l.length using Nat.strong_induction_on generalizing l with
  | _ k ih =>
    by_cases hle : l.length ≤ n
    · exact short l hle
    · exact long l (by omega) (ih _ (by rw [← hk, List.length_drop]; omega) _ rfl)

theorem blank_iff_split (n : Nat) : Blank p l ↔ Blank p (l.take n) ∧ Blank p (l.drop n) := by
  rw [← blank_append, List.take_append_drop]

theorem oneBlock_short (hn : 0 < n) (h : l.length ≤ n) : OneBlock p n l :=
  ⟨l.length / (n + l.length), fun i hi _ => by
    rw [Nat.div_eq_of_lt (by omega), Nat.div_eq_of_lt (by omega)]⟩

/-- After blanks, blocks are counted from the next one. -/
theorem oneBlock_drop (hn : 0 < n) (hb : Blank p (l.take n)) : OneBlock p n l ↔ OneBlock p n (l.drop n) := by
  constructor
  · rintro ⟨k, hk⟩
    refine ⟨k - 1, fun i hi hp => ?_⟩
    rw [List.length_drop] at hi
    rw [List.getElem_drop] at hp
    have hblock := hk (n + i) (by omega) hp
    rw [Nat.add_div_left i hn] at hblock
    rw [← hblock, Nat.succ_sub_one]
  · rintro ⟨k, hk⟩
    refine ⟨k + 1, fun i hi hp => ?_⟩
    by_cases hin : i < n
    · have htake := hb _ (List.getElem_mem (l := l.take n) (n := i) (by rw [List.length_take]; omega))
      rw [List.getElem_take, hp] at htake
      cases htake
    · obtain ⟨j, rfl⟩ : ∃ j, i = n + j := ⟨i - n, by omega⟩
      have := hk j (by rw [List.length_drop]; omega) (by rw [List.getElem_drop]; exact hp)
      rw [Nat.add_div_left j hn, this]

theorem oneBlock_take (hb : Blank p (l.drop n)) : OneBlock p n l := by
  refine ⟨0, fun i hi hp => Nat.div_eq_of_lt ?_⟩
  by_contra hin
  obtain ⟨j, rfl⟩ : ∃ j, i = n + j := ⟨i - n, by omega⟩
  have hdrop := hb _ (List.getElem_mem (l := l.drop n) (n := j) (by rw [List.length_drop]; omega))
  rw [List.getElem_drop, hp] at hdrop
  cases hdrop

theorem exists_not_blank (h : ¬ Blank p l) : ∃ (i : Nat) (hi : i < l.length), p l[i] = false := by
  unfold Blank at h
  push Not at h
  obtain ⟨a, ha, hp⟩ := h
  obtain ⟨i, hi, rfl⟩ := List.getElem_of_mem ha
  exact ⟨i, hi, by simpa using hp⟩

theorem not_oneBlock (hn : 0 < n) (h1 : ¬ Blank p (l.take n)) (h2 : ¬ Blank p (l.drop n)) : ¬ OneBlock p n l := by
  rintro ⟨k, hk⟩
  obtain ⟨i, hi, hpi⟩ := exists_not_blank h1
  obtain ⟨j, hj, hpj⟩ := exists_not_blank h2
  rw [List.length_take] at hi
  rw [List.length_drop] at hj
  rw [List.getElem_take] at hpi
  rw [List.getElem_drop] at hpj
  have hki := hk i (by omega) hpi
  have hkj := hk (n + j) (by omega) hpj
  rw [Nat.div_eq_of_lt (by omega)] at hki
  rw [Nat.add_div_left j hn, ← hki] at hkj
  exact Nat.succ_ne_zero _ hkj

/-- Nothing is cut: the pieces are that of the whole list. -/
theorem pieces_eq (hn : 0 < n) (h : OneBlock p n l) : pieces p n l = piece p l := by
  induction l using block_induction hn with
  | short l hle => exact pieces_short hle
  | long l hlt ih =>
    have hl : l.take n ++ l.drop n = l := List.take_append_drop n l
    rw [pieces_long hn hlt]
    by_cases h1 : Blank p (l.take n)
    · rw [piece_blank h1, List.nil_append, ih ((oneBlock_drop hn h1).mp h), piece, piece]
      conv => rhs; rw [← hl, trim_blank_append h1]
    · have h2 : Blank p (l.drop n) := by
        by_contra h2
        exact not_oneBlock hn h1 h2 h
      have hrest : pieces p n (l.drop n) = [] := by
        rw [ih (oneBlock_take fun a ha => h2 a (List.mem_of_mem_drop ha)), piece_blank h2]
      rw [hrest, List.append_nil, piece, piece]
      conv => rhs; rw [← hl, trim_append_blank h2]

theorem pieces_pos (hn : 0 < n) (h : ¬ Blank p l) : 0 < (pieces p n l).length := by
  induction l using block_induction hn with
  | short l hle =>
    rw [pieces_short hle, length_piece h]
    exact Nat.one_pos
  | long l hlt ih =>
    rw [pieces_long hn hlt, List.length_append]
    rw [blank_iff_split n, not_and_or] at h
    rcases h with h | h
    · rw [length_piece h]
      omega
    · have := ih h
      omega

/-- Otherwise there are more of them. -/
theorem lt_pieces (hn : 0 < n) (h : ¬ OneBlock p n l) : (piece p l).length < (pieces p n l).length := by
  induction l using block_induction hn with
  | short l hle => exact absurd (oneBlock_short hn hle) h
  | long l hlt ih =>
    rw [pieces_long hn hlt, List.length_append]
    by_cases h1 : Blank p (l.take n)
    · have hl : l.take n ++ l.drop n = l := List.take_append_drop n l
      have hsame : piece p l = piece p (l.drop n) := by
        rw [piece, piece]
        conv => lhs; rw [← hl, trim_blank_append h1]
      have := ih fun h0 => h ((oneBlock_drop hn h1).mpr h0)
      rw [hsame]
      omega
    · have h2 : ¬ Blank p (l.drop n) := fun h2 => h (oneBlock_take h2)
      have := pieces_pos hn h2
      have := piece_length_le (p := p) l
      rw [length_piece h1]
      omega

end Pieces

end Trimming
