/-
  Cs238p.Avl.Words — the words of the store: strings that are not empty, ordered as
  `strcmp` orders them.
-/
import Cs238p.Scm.Scm
import Mathlib.Data.List.Lex
import Mathlib.Data.UInt

namespace Cs238p.Avl

open ByteMemory Scm

@[ext] structure Word where
  bytes : List UInt8
  nonempty : bytes ≠ []
  isStr : IsStr bytes

/-- `strcmp`: bytes are unsigned, and the NUL after a string is below all of them. -/
def strcmp : List UInt8 → List UInt8 → Int
  | [], [] => 0
  | [], _ :: _ => -1
  | _ :: _, [] => 1
  | a :: as, b :: bs => if a = b then strcmp as bs else if a < b then -1 else 1

theorem strcmp_eq_zero : ∀ {xs ys : List UInt8}, strcmp xs ys = 0 ↔ xs = ys
  | [], [] => by simp [strcmp]
  | [], _ :: _ => by simp [strcmp]
  | _ :: _, [] => by simp [strcmp]
  | a :: as, b :: bs => by
    rw [strcmp]
    by_cases he : a = b
    · rw [if_pos he, strcmp_eq_zero, he, List.cons_inj_right]
    · rw [if_neg he]
      constructor
      · intro h; split at h <;> cases h
      · intro h; exact absurd (List.cons.inj h).1 he

/-- The sign says which string comes first in the order of their bytes. -/
theorem strcmp_neg : ∀ {xs ys : List UInt8}, strcmp xs ys < 0 ↔ xs.map UInt8.toNat < ys.map UInt8.toNat
  | [], [] => by simp [strcmp]
  | [], _ :: _ => by simp [strcmp]
  | _ :: _, [] => by simp [strcmp]
  | a :: as, b :: bs => by
    rw [strcmp, List.map_cons, List.map_cons, List.cons_lt_cons_iff]
    by_cases he : a = b
    · rw [if_pos he, strcmp_neg, he]; simp
    · rw [if_neg he]
      have hne : a.toNat ≠ b.toNat := fun h => he (UInt8.toNat_inj.mp h)
      by_cases hlt : a < b
      · rw [if_pos hlt]
        exact ⟨fun _ => Or.inl (UInt8.lt_iff_toNat_lt.mp hlt), fun _ => by decide⟩
      · rw [if_neg hlt]
        constructor
        · intro h; exact absurd h (by decide)
        · intro hh
          rcases hh with h | ⟨h, -⟩
          · exact absurd (UInt8.lt_iff_toNat_lt.mpr h) hlt
          · exact absurd h hne

/-! The letters the examples are spelt with. -/

theorem letter_a : (97 : UInt8) ≠ 0 := by decide

theorem letter_b : (98 : UInt8) ≠ 0 := by decide

theorem letter_c : (99 : UInt8) ≠ 0 := by decide

theorem letter_d : (100 : UInt8) ≠ 0 := by decide

theorem letter_e : (101 : UInt8) ≠ 0 := by decide

namespace Word

/-- `n + 1` times the same byte. -/
def rep (b : UInt8) (hb : b ≠ 0) (n : Nat) : Word :=
  ⟨List.replicate (n + 1) b, List.cons_ne_nil _ _, fun _ hc => (List.eq_of_mem_replicate hc) ▸ hb⟩

def key (w : Word) : List Nat := w.bytes.map UInt8.toNat

theorem key_injective : Function.Injective key := fun _ _ h =>
  Word.ext (List.map_injective_iff.mpr (fun _ _ => UInt8.toNat_inj.mp) h)

instance : LinearOrder Word := LinearOrder.lift' key key_injective

variable {u v : Word}

theorem strcmp_eq : strcmp u.bytes v.bytes = 0 ↔ u = v := strcmp_eq_zero.trans ⟨Word.ext, congrArg _⟩

theorem strcmp_lt : strcmp u.bytes v.bytes < 0 ↔ u < v := strcmp_neg

theorem strcmp_gt : 0 < strcmp u.bytes v.bytes ↔ v < u := by
  have heq := @strcmp_eq u v
  have hlt := @strcmp_lt u v
  constructor
  · intro h
    exact lt_of_le_of_ne (not_lt.mp fun hl => by have := hlt.mpr hl; omega) fun he => by have := heq.mpr he.symm; omega
  · intro h
    have h1 : ¬ strcmp u.bytes v.bytes < 0 := fun hl => absurd (hlt.mp hl) (not_lt.mpr (le_of_lt h))
    have h2 : strcmp u.bytes v.bytes ≠ 0 := fun he => absurd (heq.mp he) (ne_of_gt h)
    omega

end Word

/-- Reading a string back. -/
theorem cstrN_of_read {m : Mem} : ∀ {str : List UInt8} {n p : Nat}, IsStr str → m.read p (str.length + 1) = str ++ [0] →
    str.length < n → cstrN m n p = str
  | [], n + 1, p, _, hr, _ => by
    have h0 : m.byte p = 0 := by simpa [Mem.read] using hr
    rw [cstrN, if_pos h0]
  | b :: bs, n + 1, p, hs, hr, hn => by
    rw [show (b :: bs).length + 1 = 1 + (bs.length + 1) by simp only [List.length_cons]; omega, Mem.read_add] at hr
    have hb : m.byte p = b ∧ m.read (p + 1) (bs.length + 1) = bs ++ [0] := by simpa [Mem.read] using hr
    have hnz : m.byte p ≠ 0 := by rw [hb.1]; exact hs b List.mem_cons_self
    rw [cstrN, if_neg hnz, cstrN_of_read (fun c hc => hs c (List.mem_cons_of_mem _ hc)) hb.2
      (by simp only [List.length_cons] at hn; omega), hb.1]

end Cs238p.Avl
