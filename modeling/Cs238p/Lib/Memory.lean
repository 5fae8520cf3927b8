/-
  Cs238p.Lib.Memory — byte-addressed memory: a byte at every natural address, reading and
  writing a run of bytes, and little-endian words of any width at any alignment.

  A write is its bytes over the old ones (`write_byte`); everything else follows: what is
  read back where it was written (`read_write`), what a write elsewhere leaves alone
  (`read_write_of_disjoint`), and the same for words (`load_store`,
  `load_store_of_disjoint`).
-/
import Mathlib.Data.List.GetD
import Mathlib.Data.List.DropRight
import Mathlib.Data.Nat.Init
import Mathlib.Tactic.Ring

namespace ByteMemory

@[ext] structure Mem where
  byte : Nat → UInt8

namespace Mem

/-- The `n` bytes from `a` on. -/
def read (m : Mem) (a n : Nat) : List UInt8 := (List.range n).map fun i => m.byte (a + i)

/-- `bs` stored from `a` on. -/
def write (m : Mem) (a : Nat) (bs : List UInt8) : Mem :=
  ⟨fun x => if a ≤ x ∧ x < a + bs.length then bs.getD (x - a) 0 else m.byte x⟩

/-! ## Reading -/

@[simp] theorem length_read (m : Mem) (a n : Nat) : (m.read a n).length = n := by simp [read]

@[simp] theorem getElem_read (m : Mem) (a n i : Nat) (h : i < (m.read a n).length) :
    (m.read a n)[i] = m.byte (a + i) := by simp [read]

theorem read_congr {m m' : Mem} {a n : Nat} (h : ∀ x, a ≤ x → x < a + n → m.byte x = m'.byte x) :
    m.read a n = m'.read a n := by
  apply List.ext_getElem (by simp)
  intro i hi _
  simp only [length_read] at hi
  rw [getElem_read, getElem_read]
  exact h _ (by omega) (by omega)

theorem byte_eq_of_read_eq {m m' : Mem} {a n : Nat} (h : m.read a n = m'.read a n) {x : Nat} (h1 : a ≤ x)
    (h2 : x < a + n) : m.byte x = m'.byte x := by
  have hi : x - a < (m.read a n).length := by rw [length_read]; omega
  have hi' : x - a < (m'.read a n).length := h ▸ hi
  have he : (m.read a n)[x - a] = (m'.read a n)[x - a] := by simp only [h]
  simp only [getElem_read] at he
  rwa [show a + (x - a) = x by omega] at he

theorem read_add (m : Mem) (a n k : Nat) : m.read a (n + k) = m.read a n ++ m.read (a + n) k := by
  apply List.ext_getElem (by simp)
  intro i hi _
  by_cases h : i < n
  · rw [List.getElem_append_left (by rw [length_read]; exact h), getElem_read, getElem_read]
  · rw [List.getElem_append_right (by rw [length_read]; omega), getElem_read, getElem_read, length_read]
    congr 1; omega

/-! ## Writing -/

theorem byte_write_in {m : Mem} {a x : Nat} {bs : List UInt8} (h1 : a ≤ x) (h2 : x < a + bs.length) :
    (m.write a bs).byte x = bs[x - a] := by
  simp only [write]
  rw [if_pos ⟨h1, h2⟩, List.getD_eq_getElem]

theorem byte_write_out {m : Mem} {a x : Nat} {bs : List UInt8} (h : x < a ∨ a + bs.length ≤ x) :
    (m.write a bs).byte x = m.byte x := by
  simp only [write]
  rw [if_neg (by omega)]

@[simp] theorem read_write (m : Mem) (a : Nat) (bs : List UInt8) : (m.write a bs).read a bs.length = bs := by
  apply List.ext_getElem (by simp)
  intro i hi h
  rw [getElem_read, byte_write_in (by omega) (by omega)]
  simp

theorem read_write_of_disjoint {m : Mem} {a b n : Nat} {bs : List UInt8} (h : a + n ≤ b ∨ b + bs.length ≤ a) :
    (m.write b bs).read a n = m.read a n :=
  read_congr fun x h1 h2 => byte_write_out (by omega)

/-- Two blocks of one size at different multiples of it share no address. -/
theorem aligned_disjoint {B a b : Nat} (ha : a % B = 0) (hb : b % B = 0) (h : a ≠ b) : a + B ≤ b ∨ b + B ≤ a := by
  obtain ⟨x, rfl⟩ := Nat.dvd_of_mod_eq_zero ha
  obtain ⟨y, rfl⟩ := Nat.dvd_of_mod_eq_zero hb
  rcases Nat.lt_trichotomy x y with lt | rfl | lt
  · exact Or.inl (by rw [← Nat.mul_succ]; exact Nat.mul_le_mul_left B lt)
  · exact absurd rfl h
  · exact Or.inr (by rw [← Nat.mul_succ]; exact Nat.mul_le_mul_left B lt)

end Mem

/-! ## Little-endian words -/

/-- The `n` low bytes of `v`, lowest first. -/
def encode : Nat → Nat → List UInt8
  | 0, _ => []
  | n + 1, v => UInt8.ofNat (v % 256) :: encode n (v / 256)

def decode : List UInt8 → Nat
  | [] => 0
  | b :: bs => b.toNat + 256 * decode bs

@[simp] theorem length_encode (n v : Nat) : (encode n v).length = n := by
  induction n generalizing v with
  | zero => rfl
  | succ n ih => simp [encode, ih]

theorem decode_encode {n v : Nat} (h : v < 256 ^ n) : decode (encode n v) = v := by
  induction n generalizing v with
  | zero => simp [encode, decode] at *; omega
  | succ n ih =>
    have hq : v / 256 < 256 ^ n := by
      rw [Nat.div_lt_iff_lt_mul (by decide)]; rwa [Nat.pow_succ] at h
    have hm : (UInt8.ofNat (v % 256)).toNat = v % 256 := by simp
    rw [encode, decode, ih hq, hm]
    omega

theorem decode_lt (bs : List UInt8) : decode bs < 256 ^ bs.length := by
  induction bs with
  | nil => simp [decode]
  | cons b bs ih =>
    have hb := b.toNat_lt
    simp only [decode, List.length_cons, Nat.pow_succ]
    omega

namespace Mem

/-- The word of `n` bytes at `a`. -/
def load (m : Mem) (a n : Nat) : Nat := decode (m.read a n)

def store (m : Mem) (a n v : Nat) : Mem := m.write a (encode n v)

theorem load_congr {m m' : Mem} {a n : Nat} (h : m.read a n = m'.read a n) : m.load a n = m'.load a n := by
  unfold load; rw [h]

theorem load_lt (m : Mem) (a n : Nat) : m.load a n < 256 ^ n := by
  have := decode_lt (m.read a n)
  rwa [length_read] at this

theorem load_store {m : Mem} {a n v : Nat} (h : v < 256 ^ n) : (m.store a n v).load a n = v := by
  have hr := read_write m a (encode n v)
  rw [length_encode] at hr
  unfold load store
  rw [hr, decode_encode h]

theorem byte_store_out {m : Mem} {a n v x : Nat} (h : x < a ∨ a + n ≤ x) : (m.store a n v).byte x = m.byte x :=
  byte_write_out (by rw [length_encode]; exact h)

theorem read_store_of_disjoint {m : Mem} {a b n k v : Nat} (h : a + n ≤ b ∨ b + k ≤ a) :
    (m.store b k v).read a n = m.read a n :=
  read_write_of_disjoint (by rw [length_encode]; exact h)

theorem load_store_of_disjoint {m : Mem} {a b n k v : Nat} (h : a + n ≤ b ∨ b + k ≤ a) :
    (m.store b k v).load a n = m.load a n :=
  load_congr (read_store_of_disjoint h)

theorem decode_zeros (n : Nat) : decode (List.replicate n 0) = 0 := by
  induction n with
  | zero => rfl
  | succ n ih => rw [List.replicate_succ, decode, ih]; rfl

/-- Words inside a cleared block. -/
theorem load_zeros {m : Mem} {p k a n : Nat} (h1 : p ≤ a) (h2 : a + n ≤ p + k) :
    (m.write p (List.replicate k 0)).load a n = 0 := by
  have hread : (m.write p (List.replicate k 0)).read a n = List.replicate n 0 := by
    apply List.ext_getElem (by simp)
    intro i hi _
    simp only [length_read] at hi
    rw [getElem_read, byte_write_in (by omega) (by rw [List.length_replicate]; omega), List.getElem_replicate,
      List.getElem_replicate]
  rw [load, hread, decode_zeros]

end Mem

end ByteMemory
