/-
  Cs238p.Lib.Arena — a region cut into consecutive blocks, each after a header of `h`
  bytes. `Tiles h p bs q`: the blocks `bs` fill it from `p` to `q`, in address order.

  `first_fit` looks for the first free block that is large enough; `mark` sets whether the
  block at an address is in use; `inUseSize` adds up the blocks in use. Proved: blocks are
  pairwise apart, headers included (`Tiles.pairwise`, `Tiles.apart`), a block can be added at
  the end (`Tiles.append`), marking moves nothing (`Tiles.mark`), and what marking does to
  the sum (`Tiles.inUseSize_mark`).
-/
import Mathlib.Data.List.Pairwise
import Mathlib.Algebra.BigOperators.Group.List.Basic
import Mathlib.Algebra.Ring.Nat

namespace Arena

structure Blk where
  addr : Nat
  size : Nat
  inUse : Bool
  deriving DecidableEq, Repr

inductive Tiles (h : Nat) : Nat → List Blk → Nat → Prop
  | nil (p : Nat) : Tiles h p [] p
  | cons {p q : Nat} {b : Blk} {bs : List Blk} : b.addr = p + h → Tiles h (b.addr + b.size) bs q → Tiles h p (b :: bs) q

/-- Set the use of the block at `p`. -/
def mark (p : Nat) (u : Bool) (bs : List Blk) : List Blk := bs.map fun b => if b.addr =
    p then { b with inUse := u } else b

def firstFit (n : Nat) (bs : List Blk) : Option Blk := bs.find? fun b => !b.inUse && decide (n ≤ b.size)

variable {h p q n : Nat} {u : Bool} {b c : Blk} {bs : List Blk}

theorem Tiles.le (t : Tiles h p bs q) : p ≤ q := by
  induction t with
  | nil => exact Nat.le_refl _
  | cons hb _ ih => omega

/-- A block lies inside, with its header. -/
theorem Tiles.bounds (t : Tiles h p bs q) : ∀ b ∈ bs, p + h ≤ b.addr ∧ b.addr + b.size ≤ q := by
  induction t with
  | nil => exact fun b hb => absurd hb List.not_mem_nil
  | cons hb t ih =>
    intro c hc
    rcases List.mem_cons.mp hc with rfl | hc
    · exact ⟨by omega, t.le⟩
    · have := ih c hc; omega

theorem Tiles.pairwise (t : Tiles h p bs q) : bs.Pairwise fun b c => b.addr + b.size + h ≤ c.addr := by
  induction t with
  | nil => exact .nil
  | cons _ t ih => exact .cons (fun c hc => (t.bounds c hc).1) ih

/-- The blocks with their headers fill the region. -/
theorem Tiles.sum (t : Tiles h p bs q) : p + (bs.map fun b => h + b.size).sum = q := by
  induction t with
  | nil => rfl
  | cons hb _ ih =>
    rw [List.map_cons, List.sum_cons]
    omega

/-- Two blocks are apart, the later one's header included. -/
theorem Tiles.apart (t : Tiles h p bs q) (hb : b ∈ bs) (hc : c ∈ bs) (hne : b.addr ≠ c.addr) :
    b.addr + b.size + h ≤ c.addr ∨ c.addr + c.size + h ≤ b.addr := by
  induction t with
  | nil => exact absurd hb List.not_mem_nil
  | cons _ t ih =>
    rcases List.mem_cons.mp hb with rfl | hb'
    · rcases List.mem_cons.mp hc with rfl | hc'
      · exact absurd rfl hne
      · exact Or.inl (t.bounds c hc').1
    · rcases List.mem_cons.mp hc with rfl | hc'
      · exact Or.inr (t.bounds b hb').1
      · exact ih hb' hc'

/-- With headers, an address is one block's. -/
theorem Tiles.eq_of_addr (t : Tiles h p bs q) (hh : 0 < h) (hb : b ∈ bs) (hc : c ∈ bs) (he : b.addr = c.addr) : b =
    c := by
  induction t with
  | nil => exact absurd hb List.not_mem_nil
  | cons _ t ih =>
    rcases List.mem_cons.mp hb with rfl | hb'
    · rcases List.mem_cons.mp hc with rfl | hc'
      · rfl
      · have := (t.bounds c hc').1; omega
    · rcases List.mem_cons.mp hc with rfl | hc'
      · have := (t.bounds b hb').1; omega
      · exact ih hb' hc'

theorem Tiles.append (t : Tiles h p bs q) (n : Nat) (u : Bool) :
    Tiles h p (bs ++ [⟨q + h, n, u⟩]) (q + h + n) := by
  induction t with
  | nil p => exact .cons rfl (.nil _)
  | cons hb _ ih => exact .cons hb ih

theorem Tiles.mark (t : Tiles h p bs q) (a : Nat) (u : Bool) : Tiles h p (mark a u bs) q := by
  induction t with
  | nil => exact .nil _
  | @cons p q b bs hb _ ih =>
    have haddr : (if b.addr = a then { b with inUse := u } else b).addr = b.addr := by split <;> rfl
    have hsize : (if b.addr = a then { b with inUse := u } else b).size = b.size := by split <;> rfl
    exact .cons (by rw [haddr, hb]) (by rw [haddr, hsize]; exact ih)

theorem mem_mark {a : Nat} : c ∈ mark a u bs ↔ ∃ b ∈ bs, c = if b.addr = a then { b with inUse := u } else b := by
  unfold mark
  rw [List.mem_map]
  exact ⟨fun ⟨b, hb, e⟩ => ⟨b, hb, e.symm⟩, fun ⟨b, hb, e⟩ => ⟨b, hb, e.symm⟩⟩

@[simp] theorem map_addr_mark (a : Nat) (u : Bool) (bs : List Blk) : (mark a u bs).map Blk.addr = bs.map Blk.addr := by
  unfold mark
  rw [List.map_map]
  apply List.map_congr_left
  intro b _
  show (if b.addr = a then { b with inUse := u } else b).addr = b.addr
  split <;> rfl

/-- Marking an address that is no block's changes nothing. -/
theorem mark_of_not_mem {a : Nat} (ha : ∀ b ∈ bs, b.addr ≠ a) : mark a u bs = bs := by
  unfold mark
  refine (List.map_congr_left fun b hb => if_neg (ha b hb)).trans (List.map_id bs)

/-- Marking changes one block of the list. -/
theorem Tiles.mark_mid {l l' : List Blk} (t : Tiles h p (l ++ b :: l') q) (hh : 0 < h) (u : Bool) :
    Arena.mark b.addr u (l ++ b :: l') = l ++ { b with inUse := u } :: l' := by
  have hpw := List.pairwise_append.mp t.pairwise
  have hl : Arena.mark b.addr u l = l := mark_of_not_mem fun c hc e => by
    have := hpw.2.2 c hc b List.mem_cons_self; omega
  have hl' : Arena.mark b.addr u l' = l' := mark_of_not_mem fun c hc e => by
    have := (List.pairwise_cons.mp hpw.2.1).1 c hc; omega
  rw [Arena.mark, List.map_append, List.map_cons, if_pos rfl]
  exact congrArg₂ _ hl (congrArg _ hl')

theorem firstFit_some (hf : firstFit n bs = some b) : b ∈ bs ∧ b.inUse = false ∧ n ≤ b.size := by
  have hp := List.find?_some hf
  simp only [Bool.and_eq_true, Bool.not_eq_true', decide_eq_true_eq] at hp
  exact ⟨List.mem_of_find?_eq_some hf, hp.1, hp.2⟩

theorem firstFit_none (hf : firstFit n bs = none) : ∀ b ∈ bs, b.inUse = false → ¬ n ≤ b.size := by
  intro b hb hu hn
  have := List.find?_eq_none.mp hf b hb
  simp [hu, hn] at this

/-! ## The blocks in use -/

/-- How many bytes the blocks in use have. -/
def inUseSize (bs : List Blk) : Nat := ((bs.filter Blk.inUse).map Blk.size).sum

@[simp] theorem inUseSize_nil : inUseSize [] = 0 := rfl

theorem inUseSize_cons (b : Blk) (bs : List Blk) :
    inUseSize (b :: bs) = (if b.inUse = true then b.size else 0) + inUseSize bs := by
  unfold inUseSize
  by_cases hb : b.inUse = true
  · rw [List.filter_cons_of_pos hb, if_pos hb, List.map_cons, List.sum_cons]
  · rw [List.filter_cons_of_neg hb, if_neg hb, Nat.zero_add]

theorem inUseSize_append (bs cs : List Blk) : inUseSize (bs ++ cs) = inUseSize bs + inUseSize cs := by
  unfold inUseSize
  rw [List.filter_append, List.map_append, List.sum_append]

theorem inUseSize_eq_zero : inUseSize bs = 0 ↔ ∀ b ∈ bs, b.inUse = true → b.size = 0 := by
  induction bs with
  | nil => simp
  | cons b bs ih =>
    rw [inUseSize_cons, Nat.add_eq_zero_iff, ih, List.forall_mem_cons]
    by_cases hb : b.inUse = true
    · simp [hb]
    · simp [hb]

/-- The blocks in use lie next to each other at best. -/
theorem Tiles.inUseSize_le (t : Tiles h p bs q) : p + inUseSize bs ≤ q := by
  induction t with
  | nil => exact Nat.le_refl _
  | @cons p q b bs hb _ ih =>
    rw [inUseSize_cons]
    split
    · omega
    · omega

/-- A block in use is counted. -/
theorem size_le_inUseSize (hb : b ∈ bs) (hu : b.inUse = true) : b.size ≤ inUseSize bs := by
  obtain ⟨l, l', rfl⟩ := List.append_of_mem hb
  rw [inUseSize_append, inUseSize_cons, if_pos hu]
  omega

/-- Marking a block counts it anew. -/
theorem Tiles.inUseSize_mark (t : Tiles h p bs q) (hh : 0 < h) (hb : b ∈ bs) (u : Bool) :
    inUseSize (Arena.mark b.addr u bs) + (if b.inUse = true then b.size else 0) =
      inUseSize bs + if u = true then b.size else 0 := by
  obtain ⟨l, l', rfl⟩ := List.append_of_mem hb
  rw [t.mark_mid hh, inUseSize_append, inUseSize_append, inUseSize_cons, inUseSize_cons]
  simp only
  omega

end Arena
