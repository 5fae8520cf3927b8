/-
  Cs238p.Lib.CString — strings in memory that end at their first NUL.

  `StrAt m p s`: the string `s` is at `p`. `strlen` counts its bytes, as far as a limit.
  Proved: what a string is after a tail of it is replaced (`StrAt.splice`) and after a byte
  is put between its bytes (`strAt_insert`).
-/
import Cs238p.Lib.Memory

namespace ByteMemory

/-- The bytes before the first NUL, at most `n` of them. -/
def strlen (m : Mem) : Nat → Nat → Nat
  | 0, _ => 0
  | n + 1, p => if m.byte p = 0 then 0 else strlen m n (p + 1) + 1

structure StrAt (m : Mem) (p : Nat) (s : List UInt8) : Prop where
  text : m.read p s.length = s
  stop : m.byte (p + s.length) = 0
  noNul : ∀ b ∈ s, b ≠ 0

variable {m m' : Mem} {p n i : Nat} {s s' u : List UInt8} {c : UInt8}

/-- For a given string. -/
theorem noNul_of_all (h : (s.all fun b => b != 0) = true) : ∀ b ∈ s, b ≠ 0 := fun b hb =>
  bne_iff_ne.mp (List.all_eq_true.mp h b hb)

theorem StrAt.byte (h : StrAt m p s) (hi : i < s.length) : m.byte (p + i) = s[i] := by
  have hlen : i < (m.read p s.length).length := by rw [Mem.length_read]; exact hi
  rw [← Mem.getElem_read m p s.length i hlen]
  simp only [h.text]

theorem strAt_of_bytes (hb : ∀ (i : Nat) (hi : i < s.length), m.byte (p + i) = s[i]) (h0 : m.byte (p + s.length) = 0)
    (hn : ∀ b ∈ s, b ≠ 0) : StrAt m p s := by
  refine ⟨?_, h0, hn⟩
  apply List.ext_getElem (by simp)
  intro i _ hi
  rw [Mem.getElem_read]
  exact hb i hi

theorem strlen_eq_zero (hn : 0 < n) : strlen m n p = 0 ↔ m.byte p = 0 := by
  obtain ⟨n, rfl⟩ : ∃ k, n = k + 1 := ⟨n - 1, by omega⟩
  rw [strlen]
  split
  · exact iff_of_true rfl ‹_›
  · exact iff_of_false (Nat.succ_ne_zero _) ‹_›

theorem byte_ne_zero (hi : i < strlen m n p) : m.byte (p + i) ≠ 0 := by
  induction n generalizing p i with
  | zero => exact absurd hi (Nat.not_lt_zero _)
  | succ n ih =>
    rw [strlen] at hi
    split at hi
    · exact absurd hi (Nat.not_lt_zero _)
    · rename_i hne
      cases i with
      | zero => exact hne
      | succ i =>
        rw [Nat.add_comm i 1, ← Nat.add_assoc]
        exact ih (Nat.lt_of_succ_lt_succ hi)

theorem StrAt.congr (h : StrAt m p s) (hm : ∀ x, p ≤ x → x ≤ p + s.length → m'.byte x = m.byte x) : StrAt m' p s := by
  apply strAt_of_bytes
  · intro i hi
    rw [hm _ (by omega) (by omega)]
    exact h.byte hi
  · rw [hm _ (by omega) (by omega)]
    exact h.stop
  · exact h.noNul

theorem StrAt.strlen (h : StrAt m p s) (hn : s.length < n) : strlen m n p = s.length := by
  induction s generalizing p n with
  | nil =>
    obtain ⟨n, rfl⟩ : ∃ k, n = k + 1 := ⟨n - 1, by rw [List.length_nil] at hn; omega⟩
    have h0 : m.byte p = 0 := h.stop
    rw [ByteMemory.strlen, if_pos h0]
    rfl
  | cons b s ih =>
    rw [List.length_cons] at hn
    obtain ⟨n, rfl⟩ : ∃ k, n = k + 1 := ⟨n - 1, by omega⟩
    have hb : m.byte p = b := h.byte (i := 0) (Nat.zero_lt_succ _)
    have hne : m.byte p ≠ 0 := by
      rw [hb]
      exact h.noNul b List.mem_cons_self
    have hrest : StrAt m (p + 1) s := by
      apply strAt_of_bytes
      · intro i hi
        rw [Nat.add_assoc, Nat.add_comm 1 i]
        exact h.byte (i := i + 1) (Nat.succ_lt_succ hi)
      · rw [Nat.add_assoc, Nat.add_comm 1]
        exact h.stop
      · exact fun c hc => h.noNul c (List.mem_cons_of_mem _ hc)
    rw [ByteMemory.strlen, if_neg hne, ih hrest (by omega), List.length_cons]

/-- The end of a string is a string. -/
theorem StrAt.drop (h : StrAt m p s) (hi : i ≤ s.length) : StrAt m (p + i) (s.drop i) := by
  apply strAt_of_bytes
  · intro k hk
    rw [List.length_drop] at hk
    rw [List.getElem_drop, Nat.add_assoc]
    exact h.byte (by omega)
  · rw [List.length_drop, show p + i + (s.length - i) = p + s.length by omega]
    exact h.stop
  · exact fun b hb => h.noNul b (List.mem_of_mem_drop hb)

/-- A string with its NUL. -/
theorem StrAt.read (h : StrAt m p s) : m.read p (s.length + 1) = s ++ [0] := by
  rw [Mem.read_add, h.text]
  simp [Mem.read, h.stop]

theorem strAt_write (m : Mem) (p : Nat) (hn : ∀ b ∈ s, b ≠ 0) : StrAt (m.write p (s ++ [0])) p s := by
  apply strAt_of_bytes
  · intro i hi
    rw [Mem.byte_write_in (by omega) (by rw [List.length_append, List.length_singleton]; omega)]
    simp [List.getElem_append_left, hi]
  · rw [Mem.byte_write_in (by omega) (by simp)]
    simp
  · exact hn

/-! ## Editing -/

/-- The end of a string is replaced. -/
theorem StrAt.splice (h : StrAt m p s) (hi : i ≤ s.length) (hu : ∀ b ∈ u, b ≠ 0) :
    StrAt (m.write (p + i) (u ++ [0])) p (s.take i ++ u) := by
  have htail := strAt_write m (p + i) hu
  have hlen : (s.take i).length = i := List.length_take_of_le hi
  apply strAt_of_bytes
  · intro k hk
    rw [List.length_append, hlen] at hk
    by_cases hki : k < i
    · rw [Mem.byte_write_out (by omega), List.getElem_append_left (by omega), List.getElem_take]
      exact h.byte (by omega)
    · rw [List.getElem_append_right (by omega), show p + k = p + i + (k - i) by omega]
      simp only [hlen]
      exact htail.byte (by omega)
  · rw [List.length_append, hlen, ← Nat.add_assoc]
    exact htail.stop
  · intro b hb
    rcases List.mem_append.mp hb with hb | hb
    · exact h.noNul b (List.mem_of_mem_take hb)
    · exact hu b hb

/-- A byte is there before the byte at `i`. -/
theorem strAt_insert (hs : ∀ b ∈ s, b ≠ 0) (hc : c ≠ 0) (hi : i ≤ s.length)
    (front : ∀ (k : Nat) (hk : k < s.length), k < i → m.byte (p + k) = s[k]) (here : m.byte (p + i) = c)
    (back : ∀ (k : Nat) (hk : k < s.length), i ≤ k → m.byte (p + k + 1) = s[k]) (stop : m.byte (p + s.length + 1) = 0) :
    StrAt m p (s.take i ++ c :: s.drop i) := by
  have hlen : (s.take i).length = i := List.length_take_of_le hi
  apply strAt_of_bytes
  · intro k hk
    rw [List.length_append, hlen, List.length_cons, List.length_drop] at hk
    rcases Nat.lt_trichotomy k i with hki | rfl | hki
    · rw [List.getElem_append_left (by omega), List.getElem_take]
      exact front k (by omega) hki
    · rw [List.getElem_append_right (by omega)]
      simp only [hlen, Nat.sub_self, List.getElem_cons_zero]
      exact here
    · obtain ⟨k, rfl⟩ : ∃ j, k = j + 1 := ⟨k - 1, by omega⟩
      rw [List.getElem_append_right (by omega)]
      simp only [hlen, show k + 1 - i = (k - i) + 1 by omega, List.getElem_cons_succ, List.getElem_drop,
        show i + (k - i) = k by omega]
      exact back k (by omega) (by omega)
  · rw [List.length_append, hlen, List.length_cons, List.length_drop,
      show p + (i + (s.length - i + 1)) = p + s.length + 1 by omega]
    exact stop
  · intro b hb
    rcases List.mem_append.mp hb with hb | hb
    · exact hs b (List.mem_of_mem_take hb)
    · rcases List.mem_cons.mp hb with rfl | hb
      · exact hc
      · exact hs b (List.mem_of_mem_drop hb)

end ByteMemory
