/-
  Cs238p.Lib.AvlTree — counted AVL trees over a linear order: every node has a key, how
  often it is there, and the depth of its subtree (-1 of the empty one, 0 of a leaf).

  `insert` chooses its rotation by the key: after an insertion that made a child too deep,
  the grown grandchild is on the side the key went to (`insert_grows`). `erase` chooses it
  by the child's balance, and replaces a key with two children by the next one.

  Proved: both keep `Avl` (depths right, balances at most 1) and change the depth by at
  most one (`insert_avl`, `erase_avl`); a tree of depth `d` has at least
  `fib (d + 3) - 1` keys (`fib_le_size`), so its depth is logarithmic (`depth_le_log`).
  What they do to the keys is in `AvlBag`.
-/
import Mathlib.Data.Nat.Fib.Basic
import Mathlib.Data.Nat.Log
import Mathlib.Order.Defs.LinearOrder

namespace AvlTree

inductive CountTree (α : Type) where
  | nil
  | node (depth : Int) (count : Nat) (key : α) (left right : CountTree α)
  deriving DecidableEq, Repr

namespace CountTree

variable {α : Type}

def delta : CountTree α → Int
  | nil => -1
  | node d _ _ _ _ => d

@[simp] theorem delta_nil : delta (nil : CountTree α) = -1 := rfl

@[simp] theorem delta_node (d : Int) (c : Nat) (a : α) (l r : CountTree α) : delta (node d c a l r) = d := rfl

def balance : CountTree α → Int
  | nil => 0
  | node _ _ _ l r => delta l - delta r

/-- The depth over two subtrees. -/
def depthOf (l r : CountTree α) : Int := if delta l > delta r then delta l + 1 else delta r + 1

/-- A node with its depth. -/
def mk (c : Nat) (a : α) (l r : CountTree α) : CountTree α := node (depthOf l r) c a l r

def rotateRight : CountTree α → CountTree α
  | node _ c a (node _ cl al ll lr) r => mk cl al ll (mk c a lr r)
  | t => t

def rotateLeft : CountTree α → CountTree α
  | node _ c a l (node _ cr ar rl rr) => mk cr ar (mk c a l rl) rr
  | t => t

def rotateLeftRight : CountTree α → CountTree α
  | node d c a l r => rotateRight (node d c a (rotateLeft l) r)
  | t => t

def rotateRightLeft : CountTree α → CountTree α
  | node d c a l r => rotateLeft (node d c a l (rotateRight r))
  | t => t

def size : CountTree α → Nat
  | nil => 0
  | node _ _ _ l r => size l + size r + 1

/-- Keys with their counts, from left to right. -/
def toList : CountTree α → List (α × Nat)
  | nil => []
  | node _ c a l r => toList l ++ (a, c) :: toList r

/-- The leftmost key and its count. -/
def min? : CountTree α → Option (α × Nat)
  | nil => none
  | node _ c a nil _ => some (a, c)
  | node _ _ _ l _ => min? l

/-- Another count for the leftmost key. -/
def setMin (k : Nat) : CountTree α → CountTree α
  | nil => nil
  | node d _ a nil r => node d k a nil r
  | node d c a (node d' c' a' l' r') r => node d c a (setMin k (node d' c' a' l' r')) r

/-- A node whose subtrees may differ by 2. -/
def rebalance (c : Nat) (a : α) (l r : CountTree α) : CountTree α :=
  if 1 < delta l - delta r then
    if 0 ≤ balance l then rotateRight (mk c a l r) else rotateLeftRight (mk c a l r)
  else if delta l - delta r < -1 then
    if balance r ≤ 0 then rotateLeft (mk c a l r) else rotateRightLeft (mk c a l r)
  else mk c a l r

def eraseMin : CountTree α → CountTree α
  | nil => nil
  | node _ _ _ nil r => r
  | node _ c a (node d' c' a' l' r') r => rebalance c a (eraseMin (node d' c' a' l' r')) r

/-- The node of a key that goes: with two children the next key takes its place. -/
def join (l r : CountTree α) : CountTree α :=
  match l, min? r with
  | nil, _ => r
  | l, none => l
  | l, some (a, c) => rebalance c a l (eraseMin r)

/-- The key that `join` puts over two subtrees. -/
def joinKey : CountTree α → CountTree α → Option α
  | nil, _ => none
  | node _ _ _ _ _, r => (min? r).map Prod.fst

/-- Other keys in the same places. -/
def map {β : Type} (f : α → β) : CountTree α → CountTree β
  | nil => nil
  | node d c a l r => node d c (f a) (map f l) (map f r)

section Order

variable [LinearOrder α]

/-- The left child has grown by the insertion of `w`. -/
def fixLeft (w : α) (d : Int) (c : Nat) (a : α) (l r : CountTree α) : CountTree α :=
  if 1 < (delta l - delta r).natAbs then
    match l with
    | node _ _ al _ _ => if w < al then rotateRight (node d c a l r) else rotateLeftRight (node d c a l r)
    | nil => mk c a l r
  else mk c a l r

/-- The right child has. -/
def fixRight (w : α) (d : Int) (c : Nat) (a : α) (l r : CountTree α) : CountTree α :=
  if 1 < (delta l - delta r).natAbs then
    match r with
    | node _ _ ar _ _ => if ar < w then rotateLeft (node d c a l r) else rotateRightLeft (node d c a l r)
    | nil => mk c a l r
  else mk c a l r

/-- `next` counts once more a key that is there. -/
def insert (next : Nat → Nat) (w : α) : CountTree α → CountTree α
  | nil => node 0 1 w nil nil
  | node d c a l r =>
    if w = a then mk (next c) a l r
    else if w < a then fixLeft w d c a (insert next w l) r
    else fixRight w d c a l (insert next w r)

def erase (w : α) : CountTree α → CountTree α
  | nil => nil
  | node _ c a l r =>
    if w = a then if 1 < c then rebalance (c - 1) a l r else join l r
    else if w < a then rebalance c a (erase w l) r
    else rebalance c a l (erase w r)

/-- The key that takes the place of `w` when `w` is erased, if one does. -/
def heir (w : α) : CountTree α → Option α
  | nil => none
  | node _ c a l r =>
    if w = a then if 1 < c then none else joinKey l r
    else if w < a then heir w l
    else heir w r

/-- The count of a key, 0 when it is not there. -/
def find (w : α) : CountTree α → Nat
  | nil => 0
  | node _ c a l r => if w = a then c else if w < a then find w l else find w r

/-- Whether the search for a key ends at it. -/
def present (w : α) : CountTree α → Bool
  | nil => false
  | node _ _ a l r => if w = a then true else if w < a then present w l else present w r

end Order

/-! ## Balance -/

/-- Depths are right and subtrees differ by at most 1, everywhere. -/
def Avl : CountTree α → Prop
  | nil => True
  | node d _ _ l r => d = depthOf l r ∧ (delta l - delta r).natAbs ≤ 1 ∧ Avl l ∧ Avl r

/-- The true height. -/
def height : CountTree α → Int
  | nil => -1
  | node _ _ _ l r => max (height l) (height r) + 1

theorem depthOf_eq (l r : CountTree α) : depthOf l r = max (delta l) (delta r) + 1 := by
  unfold depthOf
  split <;> omega

@[simp] theorem delta_mk (c : Nat) (a : α) (l r : CountTree α) : delta (mk c a l r) = max (delta l) (delta r) + 1 :=
  depthOf_eq l r

theorem avl_mk {c : Nat} {a : α} {l r : CountTree α} (hl : Avl l) (hr : Avl r) (hd : (delta l - delta r).natAbs ≤ 1) :
    Avl (mk c a l r) := ⟨rfl, hd, hl, hr⟩

theorem Avl.delta_eq {t : CountTree α} (h : Avl t) : delta t = height t := by
  induction t with
  | nil => rfl
  | node d c a l r ihl ihr =>
    obtain ⟨rfl, -, hl, hr⟩ := h
    rw [delta_node, depthOf_eq, ihl hl, ihr hr, height]

/-- The subtrees of a tree, itself among them. -/
inductive Sub : CountTree α → CountTree α → Prop
  | refl (t : CountTree α) : Sub t t
  | left {u l r : CountTree α} {d : Int} {c : Nat} {a : α} : Sub u l → Sub u (node d c a l r)
  | right {u l r : CountTree α} {d : Int} {c : Nat} {a : α} : Sub u r → Sub u (node d c a l r)

theorem Avl.sub {t u : CountTree α} (h : Avl t) (hu : Sub u t) : Avl u := by
  induction hu with
  | refl => exact h
  | left _ ih => exact ih h.2.2.1
  | right _ ih => exact ih h.2.2.2

theorem Avl.delta_ge {t : CountTree α} (h : Avl t) : -1 ≤ delta t := by
  induction t with
  | nil => exact le_rfl
  | node d c a l r ihl _ =>
    obtain ⟨rfl, -, hl, -⟩ := h
    have := ihl hl
    rw [delta_node, depthOf_eq]; omega

/-- A deep enough tree is a node. -/
theorem Avl.exists_node {t : CountTree α} (h : Avl t) (hd : 0 ≤ delta t) :
    ∃ c a l r, t = mk c a l r ∧ (delta l - delta r).natAbs ≤ 1 ∧ Avl l ∧ Avl r := by
  cases t with
  | nil => exact absurd hd (by rw [delta_nil]; decide)
  | node d c a l r =>
    obtain ⟨rfl, hb, hl, hr⟩ := h
    exact ⟨c, a, l, r, rfl, hb, hl, hr⟩

/-- A single rotation to the right, where the left child is 2 deeper and does not lean
    to the right. -/
theorem avl_rotateRight {d : Int} {c : Nat} {a : α} {l r : CountTree α} (hl : Avl l) (hr : Avl r)
    (hd : delta l = delta r + 2) (hb : 0 ≤ balance l) :
    Avl (rotateRight (node d c a l r)) ∧
      delta (rotateRight (node d c a l r)) = (if balance l = 0 then delta l + 1 else delta l) := by
  have := hr.delta_ge
  obtain ⟨cl, al, ll, lr, rfl, hbl, hll, hlr⟩ := hl.exists_node (by omega)
  have hbal : balance (mk cl al ll lr) = delta ll - delta lr := rfl
  rw [hbal] at hb ⊢
  rw [delta_mk] at hd ⊢
  have heq : rotateRight (node d c a (mk cl al ll lr) r) = mk cl al ll (mk c a lr r) := rfl
  have hin : (delta lr - delta r).natAbs ≤ 1 := by omega
  have hout : (delta ll - delta (mk c a lr r)).natAbs ≤ 1 := by rw [delta_mk]; omega
  rw [heq, delta_mk, delta_mk]
  refine ⟨avl_mk hll (avl_mk hlr hr hin) hout, ?_⟩
  split <;> omega

theorem avl_rotateLeft {d : Int} {c : Nat} {a : α} {l r : CountTree α} (hl : Avl l) (hr : Avl r)
    (hd : delta r = delta l + 2) (hb : balance r ≤ 0) :
    Avl (rotateLeft (node d c a l r)) ∧
      delta (rotateLeft (node d c a l r)) = (if balance r = 0 then delta r + 1 else delta r) := by
  have := hl.delta_ge
  obtain ⟨cr, ar, rl, rr, rfl, hbr, hrl, hrr⟩ := hr.exists_node (by omega)
  have hbal : balance (mk cr ar rl rr) = delta rl - delta rr := rfl
  rw [hbal] at hb ⊢
  rw [delta_mk] at hd ⊢
  have heq : rotateLeft (node d c a l (mk cr ar rl rr)) = mk cr ar (mk c a l rl) rr := rfl
  have hin : (delta l - delta rl).natAbs ≤ 1 := by omega
  have hout : (delta (mk c a l rl) - delta rr).natAbs ≤ 1 := by rw [delta_mk]; omega
  rw [heq, delta_mk, delta_mk]
  refine ⟨avl_mk (avl_mk hl hrl hin) hrr hout, ?_⟩
  split <;> omega

/-- The double rotation, where the left child is 2 deeper and leans to the right. -/
theorem avl_rotateLeftRight {d : Int} {c : Nat} {a : α} {l r : CountTree α} (hl : Avl l) (hr : Avl r)
    (hd : delta l = delta r + 2) (hb : balance l < 0) :
    Avl (rotateLeftRight (node d c a l r)) ∧ delta (rotateLeftRight (node d c a l r)) = delta l := by
  have := hr.delta_ge
  obtain ⟨cl, al, ll, lr, rfl, hbl, hll, hlr⟩ := hl.exists_node (by omega)
  have hbal : balance (mk cl al ll lr) = delta ll - delta lr := rfl
  rw [hbal] at hb
  rw [delta_mk] at hd
  have := hll.delta_ge
  obtain ⟨cm, am, ml, mr, rfl, hbm, hml, hmr⟩ := hlr.exists_node (by omega)
  have heq : rotateLeftRight (node d c a (mk cl al ll (mk cm am ml mr)) r) = mk cm am (mk cl al ll ml)
    (mk c a mr r) := rfl
  rw [delta_mk] at hd hb hbl
  -- the inner child is as deep as its sibling is with one more, and the other side is as deep as the sibling
  have hm : max (delta ml) (delta mr) = delta ll := by omega
  have hr2 : delta r = delta ll := by rw [hm] at hd; omega
  have hleft : (delta ll - delta ml).natAbs ≤ 1 := by omega
  have hright : (delta mr - delta r).natAbs ≤ 1 := by omega
  have hml2 : max (delta ll) (delta ml) = delta ll := max_eq_left (hm ▸ le_max_left _ _)
  have hmr2 : max (delta mr) (delta r) = delta ll := by rw [hr2]; exact max_eq_right (hm ▸ le_max_right _ _)
  have hout : (delta (mk cl al ll ml) - delta (mk c a mr r)).natAbs ≤ 1 := by rw [delta_mk, delta_mk, hml2, hmr2]; omega
  rw [heq]
  simp only [delta_mk]
  refine ⟨avl_mk (avl_mk hll hml hleft) (avl_mk hmr hr hright) hout, ?_⟩
  rw [hml2, hmr2, hm]
  omega

theorem avl_rotateRightLeft {d : Int} {c : Nat} {a : α} {l r : CountTree α} (hl : Avl l) (hr : Avl r)
    (hd : delta r = delta l + 2) (hb : 0 < balance r) :
    Avl (rotateRightLeft (node d c a l r)) ∧ delta (rotateRightLeft (node d c a l r)) = delta r := by
  have := hl.delta_ge
  obtain ⟨cr, ar, rl, rr, rfl, hbr, hrl, hrr⟩ := hr.exists_node (by omega)
  have hbal : balance (mk cr ar rl rr) = delta rl - delta rr := rfl
  rw [hbal] at hb
  rw [delta_mk] at hd
  have := hrr.delta_ge
  obtain ⟨cm, am, ml, mr, rfl, hbm, hml, hmr⟩ := hrl.exists_node (by omega)
  have heq : rotateRightLeft (node d c a l (mk cr ar (mk cm am ml mr) rr)) = mk cm am (mk c a l ml)
    (mk cr ar mr rr) := rfl
  rw [delta_mk] at hd hb hbr
  have hm : max (delta ml) (delta mr) = delta rr := by omega
  have hl2 : delta l = delta rr := by rw [hm] at hd; omega
  have hleft : (delta l - delta ml).natAbs ≤ 1 := by omega
  have hright : (delta mr - delta rr).natAbs ≤ 1 := by omega
  have hml2 : max (delta l) (delta ml) = delta rr := by rw [hl2]; exact max_eq_left (hm ▸ le_max_left _ _)
  have hmr2 : max (delta mr) (delta rr) = delta rr := max_eq_right (hm ▸ le_max_right _ _)
  have hout : (delta (mk c a l ml) - delta (mk cr ar mr rr)).natAbs ≤ 1 := by rw [delta_mk, delta_mk, hml2, hmr2]; omega
  rw [heq]
  simp only [delta_mk]
  refine ⟨avl_mk (avl_mk hl hml hleft) (avl_mk hmr hrr hright) hout, ?_⟩
  rw [hml2, hmr2, hm]
  omega

/-- What `rebalance` makes of two subtrees that differ by at most 2. -/
theorem rebalance_avl {c : Nat} {a : α} {l r : CountTree α} (hl : Avl l) (hr : Avl r)
    (hd : (delta l - delta r).natAbs ≤ 2) :
    Avl (rebalance c a l r) ∧ delta (rebalance c a l r) ≤ max (delta l) (delta r) + 1 ∧
      max (delta l) (delta r) ≤ delta (rebalance c a l r) ∧
      ((delta l - delta r).natAbs ≤ 1 → delta (rebalance c a l r) = max (delta l) (delta r) + 1) := by
  unfold rebalance
  by_cases h1 : 1 < delta l - delta r
  · rw [if_pos h1]
    by_cases hb : 0 ≤ balance l
    · rw [if_pos hb]
      obtain ⟨ha, hdelta⟩ := @avl_rotateRight α (depthOf l r) c a l r hl hr (by omega) hb
      refine ⟨ha, ?_⟩
      rw [mk, hdelta]
      split <;> omega
    · rw [if_neg hb]
      obtain ⟨ha, hdelta⟩ := @avl_rotateLeftRight α (depthOf l r) c a l r hl hr (by omega) (by omega)
      refine ⟨ha, ?_⟩
      rw [mk, hdelta]
      omega
  · rw [if_neg h1]
    by_cases h2 : delta l - delta r < -1
    · rw [if_pos h2]
      by_cases hb : balance r ≤ 0
      · rw [if_pos hb]
        obtain ⟨ha, hdelta⟩ := @avl_rotateLeft α (depthOf l r) c a l r hl hr (by omega) hb
        refine ⟨ha, ?_⟩
        rw [mk, hdelta]
        split <;> omega
      · rw [if_neg hb]
        obtain ⟨ha, hdelta⟩ := @avl_rotateRightLeft α (depthOf l r) c a l r hl hr (by omega) (by omega)
        refine ⟨ha, ?_⟩
        rw [mk, hdelta]
        omega
    · rw [if_neg h2]
      refine ⟨avl_mk hl hr (by omega), ?_⟩
      rw [delta_mk]
      omega

theorem eraseMin_avl {t : CountTree α} (h : Avl t) :
    Avl (eraseMin t) ∧ delta (eraseMin t) ≤ delta t ∧ delta t - 1 ≤ delta (eraseMin t) := by
  induction t with
  | nil => exact ⟨h, le_rfl, by rw [eraseMin]; omega⟩
  | node d c a l r ihl _ =>
    obtain ⟨rfl, hd, hl, hr⟩ := h
    rw [delta_node, depthOf_eq]
    cases l with
    | nil =>
      have := hr.delta_ge
      rw [delta_nil] at hd ⊢
      exact ⟨hr, by rw [eraseMin]; omega, by rw [eraseMin]; omega⟩
    | node d' c' a' l' r' =>
      obtain ⟨ha, h1, h2⟩ := ihl hl
      obtain ⟨hb, h3, h4, h5⟩ := @rebalance_avl α c a (eraseMin (node d' c' a' l' r')) r ha hr (by omega)
      rw [eraseMin]
      refine ⟨hb, by omega, ?_⟩
      by_cases hsame : ((node d' c' a' l' r').eraseMin.delta - r.delta).natAbs ≤ 1
      · have := h5 hsame; omega
      · omega

@[simp] theorem delta_setMin (k : Nat) (t : CountTree α) : delta (setMin k t) = delta t := by
  unfold setMin
  split <;> rfl

@[simp] theorem avl_setMin (k : Nat) (t : CountTree α) : Avl (setMin k t) ↔ Avl t := by
  induction t with
  | nil => exact Iff.rfl
  | node d c a l r ihl _ =>
    cases l with
    | nil => exact Iff.rfl
    | node d' c' a' l' r' => simp only [setMin, Avl, depthOf, delta_setMin, ihl]

theorem min?_eq_none {t : CountTree α} (h : min? t = none) : t = nil := by
  induction t with
  | nil => rfl
  | node d c a l r ihl _ =>
    cases l with
    | nil => cases h
    | node d' c' a' l' r' => cases ihl h

theorem exists_min {t : CountTree α} (h : t ≠ nil) : ∃ a c, min? t = some (a, c) := by
  cases hm : min? t with
  | none => exact absurd (min?_eq_none hm) h
  | some e => exact ⟨e.1, e.2, rfl⟩

theorem min?_setMin {k c : Nat} {a : α} {t : CountTree α} (h : min? t = some (a, c)) :
    min? (setMin k t) = some (a, k) := by
  induction t with
  | nil => cases h
  | node d c' a' l r ihl _ =>
    cases l with
    | nil =>
      obtain ⟨rfl, rfl⟩ := Prod.mk.inj (Option.some.inj h)
      rfl
    | node d' c'' a'' l' r' =>
      have hl := ihl h
      rw [setMin]
      cases hs : setMin k (node d' c'' a'' l' r') with
      | nil => rw [hs] at hl; cases hl
      | node d2 c2 a2 l2 r2 => rw [hs] at hl; exact hl

@[simp] theorem join_nil_left (r : CountTree α) : join nil r = r := by unfold join; split <;> simp_all

@[simp] theorem join_nil_right (l : CountTree α) : join l nil = l := by cases l <;> rfl

theorem join_some {l r : CountTree α} {a : α} {c : Nat} (hl : l ≠ nil) (hm : min? r = some (a, c)) :
    join l r = rebalance c a l (eraseMin r) := by
  unfold join
  rw [hm]
  cases l with
  | nil => exact absurd rfl hl
  | node d' c' a' l' r' => rfl

@[simp] theorem joinKey_nil (l : CountTree α) : joinKey l nil = none := by cases l <;> rfl

theorem joinKey_some {l r : CountTree α} {a : α} {c : Nat} (hl : l ≠ nil) (hm : min? r = some (a, c)) :
    joinKey l r = some a := by
  cases l with
  | nil => exact absurd rfl hl
  | node d' c' a' l' r' => rw [joinKey, hm]; rfl

theorem join_avl {l r : CountTree α} (hl : Avl l) (hr : Avl r) (hd : (delta l - delta r).natAbs ≤ 1) :
    Avl (join l r) ∧ delta (join l r) ≤ max (delta l) (delta r) + 1 ∧ max (delta l) (delta r) ≤ delta (join l r) := by
  have hgl := hl.delta_ge
  have hgr := hr.delta_ge
  unfold join
  split
  · rw [delta_nil] at hd ⊢
    exact ⟨hr, by omega, by omega⟩
  · rename_i hmin
    have hnil := min?_eq_none hmin
    subst hnil
    rw [delta_nil] at hd ⊢
    exact ⟨hl, by omega, by omega⟩
  · obtain ⟨ha, h1, h2⟩ := eraseMin_avl hr
    obtain ⟨hb, h3, h4, h5⟩ := rebalance_avl hl ha (by omega)
    exact ⟨hb, by omega, by omega⟩

section Order

variable [LinearOrder α]

/-- Erasing keeps the tree balanced and makes it at most one less deep. -/
theorem erase_avl {w : α} {t : CountTree α} (h : Avl t) :
    Avl (erase w t) ∧ delta (erase w t) ≤ delta t ∧ delta t - 1 ≤ delta (erase w t) := by
  induction t with
  | nil => exact ⟨h, le_rfl, by rw [erase]; omega⟩
  | node d c a l r ihl ihr =>
    obtain ⟨rfl, hd, hl, hr⟩ := h
    rw [delta_node, depthOf_eq, erase]
    by_cases he : w = a
    · rw [if_pos he]
      by_cases hc : 1 < c
      · rw [if_pos hc]
        obtain ⟨hb, h3, h4, h5⟩ := @rebalance_avl α (c - 1) a l r hl hr (by omega)
        exact ⟨hb, by omega, by omega⟩
      · rw [if_neg hc]
        obtain ⟨hb, h3, h4⟩ := join_avl hl hr hd
        exact ⟨hb, by omega, by omega⟩
    · rw [if_neg he]
      by_cases hlt : w < a
      · rw [if_pos hlt]
        obtain ⟨ha, h1, h2⟩ := ihl hl
        obtain ⟨hb, h3, h4, h5⟩ := @rebalance_avl α c a (erase w l) r ha hr (by omega)
        refine ⟨hb, by omega, ?_⟩
        by_cases hsame : ((erase w l).delta - r.delta).natAbs ≤ 1
        · have := h5 hsame; omega
        · omega
      · rw [if_neg hlt]
        obtain ⟨ha, h1, h2⟩ := ihr hr
        obtain ⟨hb, h3, h4, h5⟩ := @rebalance_avl α c a l (erase w r) hl ha (by omega)
        refine ⟨hb, by omega, ?_⟩
        by_cases hsame : (l.delta - (erase w r).delta).natAbs ≤ 1
        · have := h5 hsame; omega
        · omega

/-- A tree that got deeper is a new leaf, or leans to the side the key went to. -/
def Grown (w : α) : CountTree α → Prop
  | nil => False
  | node d _ a l r => (d = 0 ∧ a = w) ∨ (w < a ∧ delta l = delta r + 1) ∨ (a < w ∧ delta r = delta l + 1)

/-- The left child may be 2 deeper, when it leans to the side the key went to. -/
theorem fixLeft_avl {w : α} {d : Int} {c : Nat} {a : α} {l r : CountTree α} (hl : Avl l) (hr : Avl r)
    (h1 : delta l ≤ delta r + 2) (h2 : delta r ≤ delta l + 1) (hg : delta l = delta r + 2 → Grown w l) :
    Avl (fixLeft w d c a l r) ∧
      delta (fixLeft w d c a l r) = (if delta l = delta r + 2 then delta l else max (delta l) (delta r) + 1) := by
  have hge := hr.delta_ge
  unfold fixLeft
  by_cases hbig : 1 < (delta l - delta r).natAbs
  · rw [if_pos hbig]
    have hd : delta l = delta r + 2 := by omega
    have hgrown := hg hd
    rw [if_pos hd]
    cases l with
    | nil => exact absurd hgrown id
    | node dl cl al ll lr =>
      rw [delta_node] at hd
      by_cases hw : w < al
      · simp only [if_pos hw]
        have hbal : balance (node dl cl al ll lr) = 1 := by
          rcases hgrown with ⟨h0, -⟩ | ⟨-, hb⟩ | ⟨hlt, -⟩
          · omega
          · simp only [balance, hb]; omega
          · exact absurd hlt (not_lt_of_gt hw)
        obtain ⟨ha, hdelta⟩ := @avl_rotateRight α d c a _ r hl hr hd (by omega)
        exact ⟨ha, by rw [hdelta, if_neg (by omega)]⟩
      · simp only [if_neg hw]
        have hbal : balance (node dl cl al ll lr) = -1 := by
          rcases hgrown with ⟨h0, -⟩ | ⟨hlt, -⟩ | ⟨-, hb⟩
          · omega
          · exact absurd hlt hw
          · simp only [balance, hb]; omega
        exact @avl_rotateLeftRight α d c a _ r hl hr hd (by omega)
  · rw [if_neg hbig, if_neg (by omega)]
    exact ⟨avl_mk hl hr (by omega), delta_mk _ _ _ _⟩

theorem fixRight_avl {w : α} {d : Int} {c : Nat} {a : α} {l r : CountTree α} (hl : Avl l) (hr : Avl r)
    (h1 : delta r ≤ delta l + 2) (h2 : delta l ≤ delta r + 1) (hg : delta r = delta l + 2 → Grown w r) :
    Avl (fixRight w d c a l r) ∧
      delta (fixRight w d c a l r) = (if delta r = delta l + 2 then delta r else max (delta l) (delta r) + 1) := by
  have hge := hl.delta_ge
  unfold fixRight
  by_cases hbig : 1 < (delta l - delta r).natAbs
  · rw [if_pos hbig]
    have hd : delta r = delta l + 2 := by omega
    have hgrown := hg hd
    rw [if_pos hd]
    cases r with
    | nil => exact absurd hgrown id
    | node dr cr ar rl rr =>
      rw [delta_node] at hd
      by_cases hw : ar < w
      · simp only [if_pos hw]
        have hbal : balance (node dr cr ar rl rr) = -1 := by
          rcases hgrown with ⟨h0, -⟩ | ⟨hlt, -⟩ | ⟨-, hb⟩
          · omega
          · exact absurd hlt (not_lt_of_gt hw)
          · simp only [balance, hb]; omega
        obtain ⟨ha, hdelta⟩ := @avl_rotateLeft α d c a l _ hl hr hd (by omega)
        exact ⟨ha, by rw [hdelta, if_neg (by omega)]⟩
      · simp only [if_neg hw]
        have hbal : balance (node dr cr ar rl rr) = 1 := by
          rcases hgrown with ⟨h0, -⟩ | ⟨-, hb⟩ | ⟨hlt, -⟩
          · omega
          · simp only [balance, hb]; omega
          · exact absurd hlt hw
        exact @avl_rotateRightLeft α d c a l _ hl hr hd (by omega)
  · rw [if_neg hbig, if_neg (by omega)]
    exact ⟨avl_mk hl hr (by omega), delta_mk _ _ _ _⟩

/-- Inserting keeps the tree balanced and makes it at most one deeper; then it leans to
    the side the key went to. -/
theorem insert_avl {next : Nat → Nat} {w : α} {t : CountTree α} (h : Avl t) :
    Avl (insert next w t) ∧ delta t ≤ delta (insert next w t) ∧ delta (insert next w t) ≤ delta t + 1 ∧
      (delta (insert next w t) = delta t + 1 → Grown w (insert next w t)) := by
  induction t with
  | nil =>
    refine ⟨⟨rfl, ?_, trivial, trivial⟩, ?_, ?_, fun _ => Or.inl ⟨rfl, rfl⟩⟩
    · simp
    · simp [insert]
    · simp [insert]
  | node d c a l r ihl ihr =>
    obtain ⟨hdep, hd, hl, hr⟩ := h
    rw [depthOf_eq] at hdep
    rw [insert, delta_node]
    by_cases he : w = a
    · rw [if_pos he, delta_mk]
      exact ⟨avl_mk hl hr hd, by omega, by omega, fun hn => absurd hn (by omega)⟩
    · rw [if_neg he]
      by_cases hlt : w < a
      · rw [if_pos hlt]
        obtain ⟨ha, h1, h2, hg⟩ := ihl hl
        obtain ⟨hfix, hdelta⟩ := @fixLeft_avl α _ w d c a _ r ha hr (by omega) (by omega) (fun _ => hg (by omega))
        rw [hdelta]
        refine ⟨hfix, by split <;> omega, by split <;> omega, fun hgrow => ?_⟩
        -- the node itself is one deeper only when it was not rotated
        have hsmall : ¬ 1 < (delta (insert next w l) - delta r).natAbs := by
          intro hbig
          rw [if_pos (by omega)] at hgrow; omega
        rw [if_neg (by omega)] at hgrow
        unfold fixLeft
        rw [if_neg hsmall]
        exact Or.inr (Or.inl ⟨hlt, by omega⟩)
      · rw [if_neg hlt]
        have hgt : a < w := lt_of_le_of_ne (not_lt.mp hlt) (Ne.symm he)
        obtain ⟨ha, h1, h2, hg⟩ := ihr hr
        obtain ⟨hfix, hdelta⟩ := @fixRight_avl α _ w d c a l _ hl ha (by omega) (by omega) (fun _ => hg (by omega))
        rw [hdelta]
        refine ⟨hfix, by split <;> omega, by split <;> omega, fun hgrow => ?_⟩
        have hsmall : ¬ 1 < (delta l - delta (insert next w r)).natAbs := by
          intro hbig
          rw [if_pos (by omega)] at hgrow; omega
        rw [if_neg (by omega)] at hgrow
        unfold fixRight
        rw [if_neg hsmall]
        exact Or.inr (Or.inr ⟨hgt, by omega⟩)

end Order

/-! ## Depth and number of keys -/

/-- A tree of depth `d` has at least `fib (d + 3) - 1` keys. -/
theorem fib_le_size {t : CountTree α} (h : Avl t) : Nat.fib ((delta t + 3).toNat) ≤ size t + 1 := by
  induction t with
  | nil => exact (show Nat.fib 2 ≤ 1 by decide)
  | node d c a l r ihl ihr =>
    obtain ⟨hdep, hd, hl, hr⟩ := h
    rw [depthOf_eq] at hdep
    have hgl := hl.delta_ge
    have hgr := hr.delta_ge
    have hsize : size (node d c a l r) + 1 = (size l + 1) + (size r + 1) := by rw [size]; omega
    rw [delta_node, hsize]
    -- one subtree has depth `d - 1`, the other at least `d - 2`
    obtain ⟨n, hn⟩ : ∃ n : Nat, d = n := ⟨d.toNat, by omega⟩
    have htop : (d + 3).toNat = n + 1 + 2 := by omega
    rw [htop, Nat.fib_add_two]
    by_cases hlr : delta l ≤ delta r
    · have h1 : Nat.fib (n + 1) ≤ size l + 1 := le_trans (Nat.fib_mono (by omega)) (ihl hl)
      have h2 : Nat.fib (n + 1 + 1) ≤ size r + 1 := le_trans (Nat.fib_mono (by omega)) (ihr hr)
      omega
    · have h1 : Nat.fib (n + 1) ≤ size r + 1 := le_trans (Nat.fib_mono (by omega)) (ihr hr)
      have h2 : Nat.fib (n + 1 + 1) ≤ size l + 1 := le_trans (Nat.fib_mono (by omega)) (ihl hl)
      omega

theorem two_pow_le_fib (k : Nat) : 2 ^ k ≤ Nat.fib (2 * k + 2) := by
  induction k with
  | zero => decide
  | succ k ih =>
    have hstep : Nat.fib (2 * (k + 1) + 2) = Nat.fib (2 * k + 2) + Nat.fib (2 * k + 3) := Nat.fib_add_two
    have hmono : Nat.fib (2 * k + 2) ≤ Nat.fib (2 * k + 3) := Nat.fib_mono (by omega)
    rw [hstep, Nat.pow_succ]; omega

theorem depth_le_log {t : CountTree α} (h : Avl t) : delta t ≤ 2 * Nat.log 2 (size t + 1) := by
  by_contra hlt
  obtain ⟨n, hn⟩ : ∃ n : Nat, delta t = n := ⟨(delta t).toNat, by omega⟩
  have hfib := fib_le_size h
  -- `2 ^ (n / 2 + 1)` keys would have a larger logarithm
  have hpow : 2 ^ ((n + 1) / 2) ≤ size t + 1 :=
    le_trans (two_pow_le_fib _) (le_trans (Nat.fib_mono (by omega)) hfib)
  have hlog : (n + 1) / 2 ≤ Nat.log 2 (size t + 1) := Nat.le_log_of_pow_le (by decide) hpow
  omega

/-! ## Other keys in the same places -/

section Map

variable {β : Type} (f : α → β)

@[simp] theorem map_nil : map f nil = nil := rfl

@[simp] theorem map_node (d : Int) (c : Nat) (a : α) (l r : CountTree α) :
    map f (node d c a l r) = node d c (f a) (map f l) (map f r) := rfl

@[simp] theorem delta_map (t : CountTree α) : delta (map f t) = delta t := by cases t <;> rfl

@[simp] theorem balance_map (t : CountTree α) : balance (map f t) = balance t := by cases t <;> simp [balance]

@[simp] theorem map_mk (c : Nat) (a : α) (l r : CountTree α) : map f (mk c a l r) = mk c (f a) (map f l) (map f r) := by
  simp [mk, depthOf]

@[simp] theorem map_setMin (k : Nat) (t : CountTree α) : map f (setMin k t) = setMin k (map f t) := by
  induction t with
  | nil => rfl
  | node d c a l r ihl _ =>
    cases l with
    | nil => rfl
    | node d' c' a' l' r' => simp only [setMin, map_node, ihl]

@[simp] theorem min?_map (t : CountTree α) : min? (map f t) = (min? t).map fun e => (f e.1, e.2) := by
  induction t with
  | nil => rfl
  | node d c a l r ihl _ =>
    cases l with
    | nil => rfl
    | node d' c' a' l' r' => exact ihl

@[simp] theorem size_map (t : CountTree α) : size (map f t) = size t := by
  induction t with
  | nil => rfl
  | node d c a l r ihl ihr => rw [map_node, size, size, ihl, ihr]

@[simp] theorem avl_map (t : CountTree α) : Avl (map f t) ↔ Avl t := by
  induction t with
  | nil => exact Iff.rfl
  | node d c a l r ihl ihr => simp [Avl, depthOf, ihl, ihr]

@[simp] theorem map_rotateRight (t : CountTree α) : map f (rotateRight t) = rotateRight (map f t) := by
  cases t with
  | nil => rfl
  | node d c a l r => cases l <;> simp [rotateRight]

@[simp] theorem map_rotateLeft (t : CountTree α) : map f (rotateLeft t) = rotateLeft (map f t) := by
  cases t with
  | nil => rfl
  | node d c a l r => cases r <;> simp [rotateLeft]

@[simp] theorem map_rotateLeftRight (t : CountTree α) : map f (rotateLeftRight t) = rotateLeftRight (map f t) := by
  cases t <;> simp [rotateLeftRight]

@[simp] theorem map_rotateRightLeft (t : CountTree α) : map f (rotateRightLeft t) = rotateRightLeft (map f t) := by
  cases t <;> simp [rotateRightLeft]

@[simp] theorem map_rebalance (c : Nat) (a : α) (l r : CountTree α) :
    map f (rebalance c a l r) = rebalance c (f a) (map f l) (map f r) := by
  unfold rebalance
  simp only [delta_map, balance_map]
  split
  · split <;> simp
  · split
    · split <;> simp
    · simp

end Map

end CountTree

end AvlTree
