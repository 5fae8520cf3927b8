/-
  Cs238p.Shell.Strtrim — `shell_strtrim` (`project-3/shell.c`): a string is trimmed in place.

  Proved: what is left at the address is the string without the blanks at its ends, and no
  byte past its old NUL is written (`shellStrtrim_spec`).
-/
import Cs238p.Lib.CString
import Cs238p.Lib.Trim

namespace Cs238p.Shell

open ByteMemory Trimming

/-- `isspace`, in the C locale. -/
def isspace (c : UInt8) : Bool := c == 32 || (decide (9 ≤ c) && decide (c ≤ 13))

/-- `safe_strlen`, in an address space of 64 bits. -/
def safeStrlen (m : Mem) (s : Nat) : Nat := strlen m (2 ^ 64) s

/-- The first loop, over at most `k` bytes from `b` on: where it stops. -/
def skipFront (m : Mem) : Nat → Nat → Nat
  | 0, b => b
  | k + 1, b => if isspace (m.byte b) then skipFront m k (b + 1) else b

/-- The second loop, over the first `k` bytes: how many of them it leaves. -/
def skipBack (m : Mem) (s : Nat) : Nat → Nat
  | 0 => 0
  | k + 1 => if isspace (m.byte (s + k)) then skipBack m s k else k + 1

/-- `e` is one past the `e` of the source, so that it does not go below `s`. -/
def shellStrtrim (m : Mem) (s : Nat) : Mem :=
  let b := skipFront m (safeStrlen m s) s
  let e := s + skipBack m s (safeStrlen m s)
  let n := e - b
  (m.write s (m.read b n)).write (s + n) [0]

/-- The same of a string. -/
def strtrim (s : List UInt8) : List UInt8 := trim isspace s

variable {m : Mem} {p : Nat} {s : List UInt8}

theorem skipFront_eq (m : Mem) : ∀ k b, skipFront m k b = b + ((m.read b k).takeWhile isspace).length := by
  intro k
  induction k with
  | zero => exact fun _ => rfl
  | succ k ih =>
    intro b
    have hread : m.read b (k + 1) = m.byte b :: m.read (b + 1) k := by
      rw [Nat.add_comm k 1, Mem.read_add]
      simp [Mem.read]
    rw [skipFront, hread]
    cases hb : isspace (m.byte b) with
    | true =>
      rw [if_pos rfl, ih, List.takeWhile_cons_of_pos hb, List.length_cons]
      omega
    | false =>
      rw [if_neg Bool.false_ne_true, List.takeWhile_cons_of_neg (by rw [hb]; exact Bool.false_ne_true)]
      rfl

theorem skipBack_eq (m : Mem) (s : Nat) : ∀ k, skipBack m s k = ((m.read s k).rdropWhile isspace).length := by
  intro k
  induction k with
  | zero => rfl
  | succ k ih =>
    have hread : m.read s (k + 1) = m.read s k ++ [m.byte (s + k)] := by
      rw [Mem.read_add]
      simp [Mem.read]
    rw [skipBack, hread, List.rdropWhile_concat, ih]
    split
    · rfl
    · simp

/-- A part of a string, as it is in memory. -/
theorem read_part (h : StrAt m p s) {i n : Nat} (hin : i + n ≤ s.length) : m.read (p + i) n = (s.drop i).take n := by
  apply List.ext_getElem (by simp; omega)
  intro k hk _
  rw [Mem.length_read] at hk
  rw [Mem.getElem_read, List.getElem_take, List.getElem_drop, Nat.add_assoc]
  exact h.byte (by omega)

theorem shellStrtrim_spec (h : StrAt m p s) (hlen : s.length < 2 ^ 64) :
    StrAt (shellStrtrim m p) p (strtrim s) ∧
      ∀ x, x < p ∨ p + s.length < x → (shellStrtrim m p).byte x = m.byte x := by
  have hsafe : safeStrlen m p = s.length := h.strlen hlen
  have hprefix : s.rdropWhile isspace <+: s := List.rdropWhile_prefix _ _
  have hback := hprefix.length_le
  have htrim : strtrim s = (s.drop (s.takeWhile isspace).length).take
      ((s.rdropWhile isspace).length - (s.takeWhile isspace).length) := by
    rw [strtrim, trim]
    conv => lhs; rw [List.prefix_iff_eq_take.mp hprefix]
    rw [List.drop_take]
  have hmem : shellStrtrim m p = (m.write p (strtrim s)).write (p + (strtrim s).length) [0] := by
    have hfront : (s.takeWhile isspace).length ≤ s.length := (List.takeWhile_prefix _).length_le
    unfold shellStrtrim
    simp only [hsafe, skipFront_eq, skipBack_eq, h.text, Nat.add_sub_add_left]
    have hn : (strtrim s).length = (s.rdropWhile isspace).length - (s.takeWhile isspace).length := by
      rw [htrim, List.length_take, List.length_drop]
      omega
    by_cases hle : (s.takeWhile isspace).length ≤ (s.rdropWhile isspace).length
    · rw [read_part h (by omega), ← htrim, hn]
    · rw [show (s.rdropWhile isspace).length - (s.takeWhile isspace).length = 0 by omega] at hn ⊢
      rw [List.length_eq_zero_iff.mp hn]
      rfl
  have hall : (strtrim s).length ≤ s.length := trim_length_le s
  rw [hmem]
  constructor
  · apply strAt_of_bytes
    · intro i hi
      rw [Mem.byte_write_out (by omega), Mem.byte_write_in (by omega) (by omega)]
      simp only [Nat.add_sub_cancel_left]
    · rw [Mem.byte_write_in (Nat.le_refl _) (by simp)]
      simp
    · exact fun b hb => h.noNul b (mem_of_mem_trim hb)
  · intro x hx
    rw [Mem.byte_write_out (by rw [List.length_singleton]; omega), Mem.byte_write_out (by omega)]

/-- Whatever is there: nothing is left iff there were only blanks. -/
theorem shellStrtrim_blank (m : Mem) (p : Nat) :
    safeStrlen (shellStrtrim m p) p = 0 ↔ Blank isspace (m.read p (safeStrlen m p)) := by
  have hlimit : 0 < 2 ^ 64 := by decide
  have hn : p + skipBack m p (safeStrlen m p) - skipFront m (safeStrlen m p) p =
      (trim isspace (m.read p (safeStrlen m p))).length := by
    rw [skipFront_eq, skipBack_eq, trim, List.length_drop, Nat.add_sub_add_left]
  have hzero : safeStrlen (shellStrtrim m p) p = 0 ↔ (shellStrtrim m p).byte p = 0 := strlen_eq_zero hlimit
  rw [hzero, ← trim_eq_nil, ← List.length_eq_zero_iff, ← hn]
  unfold shellStrtrim
  simp only
  have hback : skipBack m p (safeStrlen m p) ≤ safeStrlen m p := by
    rw [skipBack_eq]
    exact (List.rdropWhile_prefix _ _).length_le.trans (Nat.le_of_eq (Mem.length_read _ _ _))
  have hfront := skipFront_eq m (safeStrlen m p) p
  generalize hk : p + skipBack m p (safeStrlen m p) - skipFront m (safeStrlen m p) p = k
  cases k with
  | zero =>
    have h0 : ((m.write p (m.read (skipFront m (safeStrlen m p) p) 0)).write p [0]).byte p = 0 := by
      rw [Mem.byte_write_in (Nat.le_refl _) (by rw [List.length_singleton]; omega)]
      simp
    exact iff_of_true h0 rfl
  | succ k =>
    rw [Mem.byte_write_out (by omega), Mem.byte_write_in (Nat.le_refl _) (by rw [Mem.length_read]; omega),
      Mem.getElem_read, Nat.sub_self, Nat.add_zero, hfront]
    exact iff_of_false (byte_ne_zero (n := 2 ^ 64) (by rw [← safeStrlen]; omega)) (Nat.succ_ne_zero _)

end Cs238p.Shell
