/-
  Cs238p.Avl.Stored — a tree in memory.

  A `CountTree Loc` says where its nodes and words are; `Stored m t`: the records at these
  addresses are those of the tree. `Shaped m t` lets the item of a node be `NULL`, as a
  deletion that could not copy a word leaves it; `Whole t`: no item is. `cells t` are the
  blocks it owns. Writing a field is an `Edit` of one record: the record is as it was but for
  the field, and nothing outside its cell changed.
-/
import Cs238p.Avl.Avl
import Cs238p.Lib.AvlBag
import Cs238p.Lib.Outcome
import Cs238p.Scm.Owned

namespace Cs238p.Avl

open ByteMemory Scm AvlTree

/-- Where a node and its word are; with `str` 0 the word is one the node has no copy of. -/
structure Loc where
  addr : Nat
  str : Nat
  word : Word

def nodeCell (a : Loc) : Cell := (a.addr, 40)

def strCell (a : Loc) : Cell := (a.str, a.word.bytes.length + 1)

/-- The block of the word, if the item is not `NULL`. -/
def strCells (a : Loc) : Multiset Cell := if a.str = 0 then 0 else {strCell a}

theorem strCells_of_ne {a : Loc} (h : a.str ≠ 0) : strCells a = {strCell a} := if_neg h

theorem strCells_of_null {a : Loc} (h : a.str = 0) : strCells a = 0 := if_pos h

def ptr : CountTree Loc → Nat
  | .nil => 0
  | .node _ _ a _ _ => a.addr

@[simp] theorem ptr_nil : ptr .nil = 0 := rfl

@[simp] theorem ptr_node (d : Int) (c : Nat) (a : Loc) (l r : CountTree Loc) : ptr (.node d c a l r) = a.addr := rfl

@[simp] theorem ptr_mk (c : Nat) (a : Loc) (l r : CountTree Loc) : ptr (.mk c a l r) = a.addr := rfl

def cells : CountTree Loc → Multiset Cell
  | .nil => 0
  | .node _ _ a l r => {nodeCell a} + (strCells a + (cells l + cells r))

@[simp] theorem cells_nil : cells .nil = 0 := rfl

@[simp] theorem cells_node (d : Int) (c : Nat) (a : Loc) (l r : CountTree Loc) :
    cells (.node d c a l r) = {nodeCell a} + (strCells a + (cells l + cells r)) := rfl

@[simp] theorem cells_mk (c : Nat) (a : Loc) (l r : CountTree Loc) :
    cells (.mk c a l r) = {nodeCell a} + (strCells a + (cells l + cells r)) := rfl

/-- The tree of words. -/
def words (t : CountTree Loc) : CountTree Word := t.map Loc.word

def Stored (m : Mem) : CountTree Loc → Prop
  | .nil => True
  | .node d c a l r =>
    nodeAt m a.addr = ⟨d, c, a.str, ptr l, ptr r⟩ ∧ m.read a.str (a.word.bytes.length + 1) = a.word.bytes ++ [0] ∧
      (a.addr ≠ 0 ∧ a.addr < 2 ^ 64) ∧ (a.str ≠ 0 ∧ a.str < 2 ^ 64) ∧ Stored m l ∧ Stored m r

/-- The word of a node is in memory, unless the item is `NULL`. -/
def HasWord (m : Mem) (a : Loc) : Prop :=
  a.str ≠ 0 → m.read a.str (a.word.bytes.length + 1) = a.word.bytes ++ [0]

def Shaped (m : Mem) : CountTree Loc → Prop
  | .nil => True
  | .node d c a l r =>
    nodeAt m a.addr = ⟨d, c, a.str, ptr l, ptr r⟩ ∧ HasWord m a ∧ (a.addr ≠ 0 ∧ a.addr < 2 ^ 64) ∧ a.str < 2 ^ 64 ∧
      Shaped m l ∧ Shaped m r

/-- No item is `NULL`. -/
def Whole : CountTree Loc → Prop
  | .nil => True
  | .node _ _ a l r => a.str ≠ 0 ∧ Whole l ∧ Whole r

/-- No item is `NULL` where a search for `w` comes by. -/
def Along (w : Word) : CountTree Loc → Prop
  | .nil => True
  | .node _ _ a l r => a.str ≠ 0 ∧ (w < a.word → Along w l) ∧ (a.word < w → Along w r)

variable {m m' : Mem} {t l r : CountTree Loc} {a : Loc} {p q c n : Nat} {d : Int}

/-! ## Edits of a record -/

/-- The record at `p` is `v` now, and nothing else changed. -/
def Edit {ρ : Type} (record : Mem → Nat → ρ) (size p : Nat) (v : ρ) (m m' : Mem) : Prop :=
  record m' p = v ∧ Within {(p, size)} m m'

theorem toInt32_ofInt32 (h1 : -2 ^ 31 ≤ d) (h2 : d < 2 ^ 31) : toInt32 (ofInt32 d) = d := by
  unfold toInt32 ofInt32
  rw [BitVec.ofNat_toNat, BitVec.setWidth_eq, BitVec.toInt_ofInt]
  exact Int.bmod_eq_of_le (by omega) (by omega)

theorem ofInt32_lt (d : Int) : ofInt32 d < 256 ^ 4 := (BitVec.ofInt 32 d).isLt

section Edits

variable {i x y u : Nat}

theorem edit_setDepth {d' : Int} (hn : nodeAt m p = ⟨d, c, i, x, y⟩) (h1 : -2 ^ 31 ≤ d') (h2 : d' < 2 ^ 31) :
    Edit nodeAt 40 p ⟨d', c, i, x, y⟩ m (setDepth m p d') := by
  have hd := ofInt32_lt d'
  refine ⟨?_, within_store (by simp) (by simp)⟩
  simp only [nodeAt, Node.mk.injEq] at hn
  simp (disch := omega) only [nodeAt, setDepth, Mem.load_store_of_disjoint, Mem.load_store, toInt32_ofInt32, hn]

theorem edit_setCount {c' : Nat} (hn : nodeAt m p = ⟨d, c, i, x, y⟩) (h : c' < 2 ^ 64) :
    Edit nodeAt 40 p ⟨d, c', i, x, y⟩ m (setCount m p c') := by
  refine ⟨?_, within_store (by simp) (by simp)⟩
  simp only [nodeAt, Node.mk.injEq] at hn
  simp (disch := omega) only [nodeAt, setCount, Mem.load_store_of_disjoint, Mem.load_store, hn]

theorem edit_setItem (hn : nodeAt m p = ⟨d, c, i, x, y⟩) (h : q < 2 ^ 64) :
    Edit nodeAt 40 p ⟨d, c, q, x, y⟩ m (setItem m p q) := by
  refine ⟨?_, within_store (by simp) (by simp)⟩
  simp only [nodeAt, Node.mk.injEq] at hn
  simp (disch := omega) only [nodeAt, setItem, Mem.load_store_of_disjoint, Mem.load_store, hn]

theorem edit_setLeft (hn : nodeAt m p = ⟨d, c, i, x, y⟩) (h : q < 2 ^ 64) :
    Edit nodeAt 40 p ⟨d, c, i, q, y⟩ m (setLeft m p q) := by
  refine ⟨?_, within_store (by simp) (by simp)⟩
  simp only [nodeAt, Node.mk.injEq] at hn
  simp (disch := omega) only [nodeAt, setLeft, Mem.load_store_of_disjoint, Mem.load_store, hn]

theorem edit_setRight (hn : nodeAt m p = ⟨d, c, i, x, y⟩) (h : q < 2 ^ 64) :
    Edit nodeAt 40 p ⟨d, c, i, x, q⟩ m (setRight m p q) := by
  refine ⟨?_, within_store (by simp) (by simp)⟩
  simp only [nodeAt, Node.mk.injEq] at hn
  simp (disch := omega) only [nodeAt, setRight, Mem.load_store_of_disjoint, Mem.load_store, hn]

theorem edit_setItems (hn : stateAt m p = ⟨i, u, x⟩) (h : n < 2 ^ 64) :
    Edit stateAt 24 p ⟨n, u, x⟩ m (setItems m p n) := by
  refine ⟨?_, within_store (by simp) (by simp)⟩
  simp only [stateAt, State.mk.injEq] at hn
  simp (disch := omega) only [stateAt, setItems, Mem.load_store_of_disjoint, Mem.load_store, hn]

theorem edit_setUnique (hn : stateAt m p = ⟨i, u, x⟩) (h : n < 2 ^ 64) :
    Edit stateAt 24 p ⟨i, n, x⟩ m (setUnique m p n) := by
  refine ⟨?_, within_store (by simp) (by simp)⟩
  simp only [stateAt, State.mk.injEq] at hn
  simp (disch := omega) only [stateAt, setUnique, Mem.load_store_of_disjoint, Mem.load_store, hn]

theorem edit_setRoot (hn : stateAt m p = ⟨i, u, x⟩) (h : q < 2 ^ 64) :
    Edit stateAt 24 p ⟨i, u, q⟩ m (setRoot m p q) := by
  refine ⟨?_, within_store (by simp) (by simp)⟩
  simp only [stateAt, State.mk.injEq] at hn
  simp (disch := omega) only [stateAt, setRoot, Mem.load_store_of_disjoint, Mem.load_store, hn]

end Edits

/-- Loads inside a cell that did not change. -/
theorem load_congr (h : Agree {(p, n)} m m') {x k : Nat} (h1 : p ≤ x) (h2 : x + k ≤ p + n) : m'.load x k = m.load x k :=
  Mem.load_congr (h.read (Multiset.mem_singleton_self _) h1 h2)

theorem nodeAt_congr (h : Agree {(p, 40)} m m') : nodeAt m' p = nodeAt m p := by
  unfold nodeAt
  rw [@load_congr _ _ _ _ h p 4 (by omega) (by omega), @load_congr _ _ _ _ h (p + 8) 8 (by omega) (by omega),
    @load_congr _ _ _ _ h (p + 16) 8 (by omega) (by omega), @load_congr _ _ _ _ h (p + 24) 8 (by omega) (by omega),
    @load_congr _ _ _ _ h (p + 32) 8 (by omega) (by omega)]

theorem stateAt_congr (h : Agree {(p, 24)} m m') : stateAt m' p = stateAt m p := by
  unfold stateAt
  rw [@load_congr _ _ _ _ h p 8 (by omega) (by omega), @load_congr _ _ _ _ h (p + 8) 8 (by omega) (by omega),
    @load_congr _ _ _ _ h (p + 16) 8 (by omega) (by omega)]

/-! ## Trees -/

/-- A word stays where its cell does not change. -/
theorem HasWord.congr (h : HasWord m a) (ha : Agree (strCells a) m m') : HasWord m' a := by
  intro hne
  rw [strCells_of_ne hne] at ha
  exact (ha.read (Multiset.mem_singleton_self _) (Nat.le_refl _) (Nat.le_refl _)).trans (h hne)

/-- A tree stays where its cells do not change. -/
theorem Shaped.congr (h : Shaped m t) (ha : Agree (cells t) m m') : Shaped m' t := by
  induction t with
  | nil => trivial
  | node d c a l r ihl ihr =>
    obtain ⟨hn, hs, hp, hq, hl, hr⟩ := h
    rw [cells_node, agree_add, agree_add, agree_add] at ha
    obtain ⟨h1, h2, h3, h4⟩ := ha
    exact ⟨(nodeAt_congr h1).trans hn, hs.congr h2, hp, hq, ihl hl h3, ihr hr h4⟩

theorem Shaped.stored (h : Shaped m t) (hw : Whole t) : Stored m t := by
  induction t with
  | nil => trivial
  | node d c a l r ihl ihr =>
    obtain ⟨hn, hs, hp, hq, hl, hr⟩ := h
    exact ⟨hn, hs hw.1, hp, ⟨hw.1, hq⟩, ihl hl hw.2.1, ihr hr hw.2.2⟩

theorem Whole.along (h : Whole t) (w : Word) : Along w t := by
  induction t with
  | nil => trivial
  | node d c a l r ihl ihr => exact ⟨h.1, fun _ => ihl h.2.1, fun _ => ihr h.2.2⟩

theorem Shaped.ptr_lt (h : Shaped m t) : ptr t < 2 ^ 64 := by
  cases t with
  | nil => exact Nat.two_pow_pos 64
  | node d c a l r => exact h.2.2.1.2

theorem Shaped.ptr_eq_zero (h : Shaped m t) : ptr t = 0 ↔ t = .nil := by
  cases t with
  | nil => simp
  | node d c a l r => simp [h.2.2.1.1]

theorem Shaped.delta_eq (h : Shaped m t) : delta m (ptr t) = t.delta := by
  cases t with
  | nil => rfl
  | node d c a l r =>
    obtain ⟨hn, -, hp, -⟩ := h
    rw [ptr_node, delta, if_pos hp.1, hn, CountTree.delta_node]

theorem Shaped.depth_eq (hl : Shaped m l) (hr : Shaped m r) : depth m (ptr l) (ptr r) = CountTree.depthOf l r := by
  rw [depth, hl.delta_eq, hr.delta_eq, CountTree.depthOf]

theorem Shaped.deref_eq (h : Shaped m (.node d c a l r)) : deref m a.addr = .ok ⟨d, c, a.str, ptr l, ptr r⟩ := by
  rw [deref, if_neg h.2.2.1.1, h.1]

theorem Shaped.balance_eq (h : Shaped m (.node d c a l r)) : balance m a.addr = .ok (l.delta - r.delta) := by
  have hd := h.deref_eq
  obtain ⟨-, -, -, -, hl, hr⟩ := h
  unfold balance
  rw [hd]
  show Except.ok (delta m (ptr l) - delta m (ptr r)) = _
  rw [hl.delta_eq, hr.delta_eq]

/-- A node's record changed, its subtrees and its word did not. -/
theorem Shaped.edit {d' : Int} {c' : Nat} (h : Shaped m (.node d c a l r)) (hsep : Sep (cells (.node d c a l r)))
    (he : Edit nodeAt 40 a.addr ⟨d', c', a.str, ptr l, ptr r⟩ m m') : Shaped m' (.node d' c' a l r) := by
  obtain ⟨hn, hs, hp, hq, hl, hr⟩ := h
  have hag := hsep.agree he.2
  rw [agree_add, agree_add] at hag
  obtain ⟨h2, h3, h4⟩ := hag
  exact ⟨he.1, hs.congr h2, hp, hq, hl.congr h3, hr.congr h4⟩

end Cs238p.Avl
