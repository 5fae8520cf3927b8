/-
  Cs238p.Lib.Frames — who owns which bytes: a cell is an address and a number of bytes.

  `Sep F`: the cells of the multiset `F` are pairwise apart, so that a sum of multisets is
  separated when both parts are and every cell of one is apart from every cell of the other
  (`sep_add`). `Within F m m'`: the memory changed inside `F` only. `Agree F m m'`: it did
  not change inside `F`. The frame rule is `Sep.agree`: a change within some cells leaves
  the cells apart from them alone.
-/
import Cs238p.Lib.Memory
import Mathlib.Algebra.Order.Group.Multiset
import Mathlib.Data.Multiset.Pairwise
import Mathlib.Data.Multiset.Replicate

namespace ByteMemory

/-- Address and number of bytes. -/
abbrev Cell := Nat × Nat

def Apart (e f : Cell) : Prop := e.1 + e.2 ≤ f.1 ∨ f.1 + f.2 ≤ e.1

theorem Apart.symm {e f : Cell} (h : Apart e f) : Apart f e := Or.symm h

instance : Std.Symm Apart := ⟨fun _ _ => Apart.symm⟩

def Sep (F : Multiset Cell) : Prop := F.Pairwise Apart

def Within (F : Multiset Cell) (m m' : Mem) : Prop := ∀ x, (∀ e ∈ F, x < e.1 ∨ e.1 + e.2 ≤ x) → m'.byte x = m.byte x

def Agree (F : Multiset Cell) (m m' : Mem) : Prop := ∀ e ∈ F, ∀ x, e.1 ≤ x → x < e.1 + e.2 → m'.byte x = m.byte x

variable {F G : Multiset Cell} {e f : Cell} {m m' m'' : Mem}

/-! ## Separation -/

theorem sep_add : Sep (F + G) ↔ Sep F ∧ Sep G ∧ ∀ e ∈ F, ∀ f ∈ G, Apart e f := by
  induction F using Quotient.inductionOn with
  | h l => induction G using Quotient.inductionOn with
    | h l' =>
      simp only [Multiset.quot_mk_to_coe, Sep, Multiset.coe_add, Multiset.mem_coe,
        Multiset.pairwise_coe_iff_pairwise, List.pairwise_append]

theorem sep_cons : Sep (e ::ₘ F) ↔ (∀ f ∈ F, Apart e f) ∧ Sep F := by
  induction F using Quotient.inductionOn with
  | h l =>
    simp only [Multiset.quot_mk_to_coe, Sep, Multiset.cons_coe, Multiset.mem_coe,
      Multiset.pairwise_coe_iff_pairwise, List.pairwise_cons]

@[simp] theorem sep_zero : Sep 0 := Multiset.pairwise_zero _

@[simp] theorem sep_singleton : Sep {e} := sep_cons.mpr ⟨fun _ hf => absurd hf (Multiset.notMem_zero _), sep_zero⟩

theorem Sep.left (h : Sep (F + G)) : Sep F := (sep_add.mp h).1

theorem Sep.apart (h : Sep (F + G)) (he : e ∈ F) (hf : f ∈ G) : Apart e f := (sep_add.mp h).2.2 e he f hf

/-! ## What changed and what did not -/

@[simp] theorem agree_refl (F : Multiset Cell) (m : Mem) : Agree F m m := fun _ _ _ _ _ => rfl

theorem Agree.trans (h : Agree F m m') (h' : Agree F m' m'') : Agree F m m'' :=
  fun e he x h1 h2 => (h' e he x h1 h2).trans (h e he x h1 h2)

theorem agree_add : Agree (F + G) m m' ↔ Agree F m m' ∧ Agree G m m' := by
  simp only [Agree, Multiset.mem_add]
  exact ⟨fun h => ⟨fun e he => h e (Or.inl he), fun e he => h e (Or.inr he)⟩,
    fun h e he => he.elim (h.1 e) (h.2 e)⟩

/-- Reading inside a cell that did not change. -/
theorem Agree.read (h : Agree F m m') (he : e ∈ F) {a n : Nat} (h1 : e.1 ≤ a) (h2 : a + n ≤ e.1 + e.2) :
    m'.read a n = m.read a n :=
  Mem.read_congr fun x hx1 hx2 => h e he x (by omega) (by omega)

theorem Within.trans (h : Within F m m') (h' : Within F m' m'') : Within F m m'' :=
  fun x hx => (h' x hx).trans (h x hx)

theorem Within.mono (h : Within F m m') (hs : ∀ e ∈ F, e ∈ G) : Within G m m' :=
  fun x hx => h x fun e he => hx e (hs e he)

theorem within_add_left (h : Within F m m') : Within (F + G) m m' := h.mono fun _ he => Multiset.mem_add.mpr (Or.inl he)

theorem within_add_right (h : Within G m m') : Within (F + G) m m' :=
  h.mono fun _ he => Multiset.mem_add.mpr (Or.inr he)

theorem within_write {bs : List UInt8} {a : Nat} (h1 : e.1 ≤ a) (h2 : a + bs.length ≤ e.1 + e.2) :
    Within {e} m (m.write a bs) := by
  intro x hx
  have := hx e (Multiset.mem_singleton_self e)
  exact Mem.byte_write_out (by omega)

theorem within_store {a n v : Nat} (h1 : e.1 ≤ a) (h2 : a + n ≤ e.1 + e.2) : Within {e} m (m.store a n v) :=
  within_write h1 (by rw [length_encode]; exact h2)

/-- The frame rule. -/
theorem Sep.agree (h : Sep (F + G)) (hw : Within F m m') : Agree G m m' := by
  intro f hf x h1 h2
  apply hw x
  intro e he
  rcases h.apart he hf with ha | ha <;> omega

end ByteMemory
