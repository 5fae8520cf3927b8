/-
  Cs238p.Lib.AvlBag — a counted AVL tree as a multiset: `toList` is its keys and counts
  from left to right, `bag` the multiset that they stand for.

  Rotations keep `toList`, so `insert` and `erase` are seen through it: on a tree with
  strictly increasing keys and positive counts (both are kept) they add and remove one
  occurrence of the key (`bag_insert`, `bag_erase`), and `find` answers its multiplicity
  (`find_eq`).
-/
import Cs238p.Lib.AvlTree
import Mathlib.Data.Finset.Dedup
import Mathlib.Data.Multiset.Replicate

namespace AvlTree

namespace CountTree

variable {α : Type}

/-! ## Keys and counts from left to right -/

@[simp] theorem toList_nil : toList (nil : CountTree α) = [] := rfl

@[simp] theorem toList_node (d : Int) (c : Nat) (a : α) (l r : CountTree α) :
    toList (node d c a l r) = toList l ++ (a, c) :: toList r := rfl

@[simp] theorem toList_mk (c : Nat) (a : α) (l r : CountTree α) :
    toList (mk c a l r) = toList l ++ (a, c) :: toList r := rfl

@[simp] theorem toList_rotateRight (t : CountTree α) : toList (rotateRight t) = toList t := by
  unfold rotateRight
  split
  · simp
  · rfl

@[simp] theorem toList_rotateLeft (t : CountTree α) : toList (rotateLeft t) = toList t := by
  unfold rotateLeft
  split
  · simp
  · rfl

@[simp] theorem toList_rotateLeftRight (t : CountTree α) : toList (rotateLeftRight t) = toList t := by
  cases t <;> simp [rotateLeftRight]

@[simp] theorem toList_rotateRightLeft (t : CountTree α) : toList (rotateRightLeft t) = toList t := by
  cases t <;> simp [rotateRightLeft]

@[simp] theorem toList_rebalance (c : Nat) (a : α) (l r : CountTree α) :
    toList (rebalance c a l r) = toList l ++ (a, c) :: toList r := by
  unfold rebalance
  split
  · split <;> simp
  · split
    · split <;> simp
    · simp

theorem toList_eraseMin {t : CountTree α} {a : α} {c : Nat} (h : min? t = some (a, c)) :
    toList t = (a, c) :: toList (eraseMin t) := by
  induction t with
  | nil => cases h
  | node d c' a' l r ihl _ =>
    cases l with
    | nil =>
      obtain ⟨rfl, rfl⟩ := Prod.mk.inj (Option.some.inj h)
      rfl
    | node d' c'' a'' l' r' =>
      rw [toList_node, ihl h, eraseMin, toList_rebalance]
      rfl

@[simp] theorem toList_join (l r : CountTree α) : toList (join l r) = toList l ++ toList r := by
  unfold join
  split
  · rfl
  · rename_i hmin
    rw [min?_eq_none hmin]; simp
  · rename_i hmin
    rw [toList_rebalance, toList_eraseMin hmin]

theorem size_eq_length (t : CountTree α) : size t = (toList t).length := by
  induction t with
  | nil => rfl
  | node d c a l r ihl ihr => rw [size, ihl, ihr, toList_node, List.length_append, List.length_cons]; omega

end CountTree

/-! ## Counted lists -/

section Counted

variable {α : Type}

/-- Every key as often as its count says. -/
def bagOf : List (α × Nat) → Multiset α
  | [] => 0
  | (a, c) :: L => Multiset.replicate c a + bagOf L

@[simp] theorem bagOf_nil : bagOf ([] : List (α × Nat)) = 0 := rfl

@[simp] theorem bagOf_cons (a : α) (c : Nat) (L : List (α × Nat)) :
    bagOf ((a, c) :: L) = Multiset.replicate c a + bagOf L := rfl

@[simp] theorem bagOf_append (L L' : List (α × Nat)) : bagOf (L ++ L') = bagOf L + bagOf L' := by
  induction L with
  | nil => simp
  | cons e L ih => obtain ⟨a, c⟩ := e; simp [ih, add_assoc]

theorem mem_bagOf {L : List (α × Nat)} {x : α} : x ∈ bagOf L ↔ ∃ c, (x, c) ∈ L ∧ 0 < c := by
  induction L with
  | nil => simp
  | cons e L ih =>
    obtain ⟨a, c⟩ := e
    rw [bagOf_cons, Multiset.mem_add, Multiset.mem_replicate, ih]
    constructor
    · intro h
      rcases h with ⟨hc, rfl⟩ | ⟨c', hm, hc⟩
      · exact ⟨c, List.mem_cons_self, Nat.pos_of_ne_zero hc⟩
      · exact ⟨c', List.mem_cons_of_mem _ hm, hc⟩
    · intro h
      obtain ⟨c', hm, hc⟩ := h
      rcases List.mem_cons.mp hm with he | hm
      · obtain ⟨rfl, rfl⟩ := Prod.mk.inj he
        exact Or.inl ⟨by omega, rfl⟩
      · exact Or.inr ⟨c', hm, hc⟩

/-- What is not a key is not counted. -/
theorem notMem_bagOf {L : List (α × Nat)} {x : α} (h : ∀ e ∈ L, e.1 ≠ x) : x ∉ bagOf L := by
  intro hm
  obtain ⟨c, hc, -⟩ := mem_bagOf.mp hm
  exact h _ hc rfl

/-- Removing a key from a sum where only the first part may have it. -/
theorem erase_add_of_notMem [DecidableEq α] {s t : Multiset α} {w : α} (h : w ∉ t) :
    (s + t).erase w = s.erase w + t := by
  by_cases hs : w ∈ s
  · exact Multiset.erase_add_left_pos t hs
  · rw [Multiset.erase_of_notMem hs, Multiset.erase_of_notMem fun hm => (Multiset.mem_add.mp hm).elim hs h]

/-- A member that is there once is the last of its kind. -/
theorem card_toFinset_erase [DecidableEq α] {s : Multiset α} {w : α} (h : w ∈ s) :
    (s.erase w).toFinset.card = if s.count w = 1 then s.toFinset.card - 1 else s.toFinset.card := by
  have hpos := Multiset.count_pos.mpr h
  by_cases h1 : s.count w = 1
  · have heq : (s.erase w).toFinset = s.toFinset.erase w := by
      ext x
      rw [Finset.mem_erase, Multiset.mem_toFinset, Multiset.mem_toFinset]
      by_cases hx : x = w
      · subst hx
        rw [← Multiset.count_pos, Multiset.count_erase_self]
        exact ⟨fun hc => by omega, fun hc => absurd rfl hc.1⟩
      · rw [Multiset.mem_erase_of_ne hx]
        exact ⟨fun hm => ⟨hx, hm⟩, fun hm => hm.2⟩
    rw [if_pos h1, heq, Finset.card_erase_of_mem (Multiset.mem_toFinset.mpr h)]
  · have heq : (s.erase w).toFinset = s.toFinset := by
      ext x
      rw [Multiset.mem_toFinset, Multiset.mem_toFinset]
      by_cases hx : x = w
      · subst hx
        rw [← Multiset.count_pos, Multiset.count_erase_self]
        exact ⟨fun _ => h, fun _ => by omega⟩
      · exact Multiset.mem_erase_of_ne hx
    rw [if_neg h1, heq]

variable [LinearOrder α]

/-- Strictly increasing keys. -/
def Sorted (L : List (α × Nat)) : Prop := L.Pairwise fun x y => x.1 < y.1

theorem sorted_mid {L L' : List (α × Nat)} {a : α} {c : Nat} :
    Sorted (L ++ (a, c) :: L') ↔ Sorted L ∧ Sorted L' ∧ (∀ e ∈ L, e.1 < a) ∧ ∀ e ∈ L', a < e.1 := by
  unfold Sorted
  rw [List.pairwise_append, List.pairwise_cons]
  constructor
  · intro h
    obtain ⟨h1, ⟨h2, h3⟩, h4⟩ := h
    exact ⟨h1, h3, fun e he => h4 e he _ List.mem_cons_self, fun e he => h2 e he⟩
  · intro h
    obtain ⟨h1, h2, h3, h4⟩ := h
    refine ⟨h1, ⟨fun e he => h4 e he, h2⟩, ?_⟩
    intro e he f hf
    rcases List.mem_cons.mp hf with rfl | hf
    · exact h3 e he
    · exact lt_trans (h3 e he) (h4 f hf)

/-- An entry says how often its key is there. -/
theorem count_of_mem {L : List (α × Nat)} (h : Sorted L) {a : α} {c : Nat} (hm : (a, c) ∈ L) : (bagOf L).count a =
    c := by
  obtain ⟨L1, L2, rfl⟩ := List.append_of_mem hm
  obtain ⟨-, -, hlt, hgt⟩ := sorted_mid.mp h
  have h1 : (bagOf L1).count a = 0 := Multiset.count_eq_zero.mpr (notMem_bagOf fun e he => ne_of_lt (hlt e he))
  have h2 : (bagOf L2).count a = 0 := Multiset.count_eq_zero.mpr (notMem_bagOf fun e he => ne_of_gt (hgt e he))
  simp [h1, h2]

/-- The number of keys is that of distinct members. -/
theorem length_eq_card {L : List (α × Nat)} (h : Sorted L) (hpos : ∀ e ∈ L, 0 < e.2) :
    L.length = (bagOf L).toFinset.card := by
  have hnodup : (L.map Prod.fst).Nodup := List.pairwise_map.mpr (h.imp fun hlt => ne_of_lt hlt)
  have hset : (bagOf L).toFinset = (L.map Prod.fst).toFinset := by
    ext x
    rw [Multiset.mem_toFinset, mem_bagOf, List.mem_toFinset, List.mem_map]
    exact ⟨fun ⟨c, hc, _⟩ => ⟨_, hc, rfl⟩, fun ⟨e, he, hx⟩ => ⟨e.2, hx ▸ he, hpos e he⟩⟩
  rw [hset, List.toFinset_card_of_nodup hnodup, List.length_map]

end Counted

/-! ## The tree as a multiset -/

namespace CountTree

variable {α : Type}

/-- The multiset that the tree stands for. -/
def bag (t : CountTree α) : Multiset α := bagOf (toList t)

def Positive (t : CountTree α) : Prop := ∀ e ∈ toList t, 0 < e.2

variable [LinearOrder α]

def Ordered (t : CountTree α) : Prop := Sorted (toList t)

@[simp] theorem toList_fixLeft (w : α) (d : Int) (c : Nat) (a : α) (l r : CountTree α) :
    toList (fixLeft w d c a l r) = toList l ++ (a, c) :: toList r := by
  unfold fixLeft
  split
  · split
    · split <;> simp
    · simp
  · simp

@[simp] theorem toList_fixRight (w : α) (d : Int) (c : Nat) (a : α) (l r : CountTree α) :
    toList (fixRight w d c a l r) = toList l ++ (a, c) :: toList r := by
  unfold fixRight
  split
  · split
    · split <;> simp
    · simp
  · simp

theorem bag_insert {next : Nat → Nat} {w : α} {t : CountTree α} (hn : ∀ c, (w, c) ∈ toList t → next c = c + 1) :
    bag (insert next w t) = w ::ₘ bag t := by
  unfold bag
  induction t with
  | nil => simp [insert]
  | node d c a l r ihl ihr =>
    simp only [toList_node, List.mem_append, List.mem_cons] at hn
    rw [insert]
    by_cases he : w = a
    · subst he
      simp [hn c (Or.inr (Or.inl rfl)), Multiset.replicate_succ]
    · rw [if_neg he]
      by_cases hlt : w < a
      · simp [if_pos hlt, ihl fun c hc => hn c (Or.inl hc)]
      · simp [if_neg hlt, ihr fun c hc => hn c (Or.inr (Or.inr hc))]

/-- An entry after an insertion was there before, or is the key's. -/
theorem mem_insert {next : Nat → Nat} {w : α} {t : CountTree α} {e : α × Nat} (h : e ∈ toList (insert next w t)) :
    e ∈ toList t ∨ (e.1 = w ∧ (e.2 = 1 ∨ ∃ c, (w, c) ∈ toList t ∧ e.2 = next c)) := by
  induction t with
  | nil =>
    rw [List.mem_singleton.mp h]
    exact Or.inr ⟨rfl, Or.inl rfl⟩
  | node d c a l r ihl ihr =>
    simp only [toList_node, List.mem_append, List.mem_cons]
    rw [insert] at h
    by_cases he : w = a
    · rw [if_pos he, toList_mk, List.mem_append, List.mem_cons] at h
      rcases h with h | rfl | h
      · exact Or.inl (Or.inl h)
      · exact Or.inr ⟨he.symm, Or.inr ⟨c, Or.inr (Or.inl (by rw [he])), rfl⟩⟩
      · exact Or.inl (Or.inr (Or.inr h))
    · rw [if_neg he] at h
      by_cases hlt : w < a
      · rw [if_pos hlt, toList_fixLeft, List.mem_append, List.mem_cons] at h
        rcases h with h | h
        · rcases ihl h with h | ⟨hw, h | ⟨c', hc, h⟩⟩
          · exact Or.inl (Or.inl h)
          · exact Or.inr ⟨hw, Or.inl h⟩
          · exact Or.inr ⟨hw, Or.inr ⟨c', Or.inl hc, h⟩⟩
        · exact Or.inl (Or.inr h)
      · rw [if_neg hlt, toList_fixRight, List.mem_append, List.mem_cons] at h
        rcases h with h | rfl | h
        · exact Or.inl (Or.inl h)
        · exact Or.inl (Or.inr (Or.inl rfl))
        · rcases ihr h with h | ⟨hw, h | ⟨c', hc, h⟩⟩
          · exact Or.inl (Or.inr (Or.inr h))
          · exact Or.inr ⟨hw, Or.inl h⟩
          · exact Or.inr ⟨hw, Or.inr ⟨c', Or.inr (Or.inr hc), h⟩⟩

/-- An entry after a removal was there before, or is the key's with a smaller count. -/
theorem mem_erase {w : α} {t : CountTree α} {e : α × Nat} (h : e ∈ toList (erase w t)) :
    e ∈ toList t ∨ (∃ c, (w, c) ∈ toList t ∧ e.1 = w ∧ 0 < e.2) := by
  induction t with
  | nil => exact Or.inl h
  | node d c a l r ihl ihr =>
    rw [toList_node, List.mem_append, List.mem_cons]
    simp only [List.mem_append, List.mem_cons]
    rw [erase] at h
    by_cases he : w = a
    · rw [if_pos he] at h
      by_cases hc : 1 < c
      · rw [if_pos hc, toList_rebalance, List.mem_append, List.mem_cons] at h
        rcases h with h | rfl | h
        · exact Or.inl (Or.inl h)
        · exact Or.inr ⟨c, Or.inr (Or.inl (by rw [he])), he.symm, Nat.sub_pos_of_lt hc⟩
        · exact Or.inl (Or.inr (Or.inr h))
      · rw [if_neg hc, toList_join, List.mem_append] at h
        exact Or.inl (h.imp_right Or.inr)
    · rw [if_neg he] at h
      by_cases hlt : w < a
      · rw [if_pos hlt, toList_rebalance, List.mem_append, List.mem_cons] at h
        rcases h with h | h
        · rcases ihl h with h | ⟨c', h, hw⟩
          · exact Or.inl (Or.inl h)
          · exact Or.inr ⟨c', Or.inl h, hw⟩
        · exact Or.inl (Or.inr h)
      · rw [if_neg hlt, toList_rebalance, List.mem_append, List.mem_cons] at h
        rcases h with h | rfl | h
        · exact Or.inl (Or.inl h)
        · exact Or.inl (Or.inr (Or.inl rfl))
        · rcases ihr h with h | ⟨c', h, hw⟩
          · exact Or.inl (Or.inr (Or.inr h))
          · exact Or.inr ⟨c', Or.inr (Or.inr h), hw⟩

theorem Positive.insert {next : Nat → Nat} {w : α} {t : CountTree α} (h : Positive t)
    (hn : ∀ c, (w, c) ∈ toList t → next c = c + 1) : Positive (insert next w t) := by
  intro e he
  rcases mem_insert he with he | ⟨-, h1 | ⟨c, hc, h1⟩⟩
  · exact h e he
  · omega
  · rw [hn c hc] at h1; omega

theorem Positive.erase {t : CountTree α} (h : Positive t) (w : α) : Positive (erase w t) := by
  intro e he
  rcases mem_erase he with he | ⟨c, -, -, hpos⟩
  · exact h e he
  · exact hpos

theorem ordered_node {d : Int} {c : Nat} {a : α} {l r : CountTree α} : Ordered (node d c a l r) ↔
    Ordered l ∧ Ordered r ∧ (∀ e ∈ toList l, e.1 < a) ∧ ∀ e ∈ toList r, a < e.1 := sorted_mid

/-- Keys that are all below a bound stay so when a key below it is added. -/
theorem Ordered.insert {t : CountTree α} (h : Ordered t) (next : Nat → Nat) (w : α) : Ordered (insert next w t) := by
  induction t with
  | nil => exact List.pairwise_singleton _ _
  | node d c a l r ihl ihr =>
    obtain ⟨hl, hr, hlt, hgt⟩ := ordered_node.mp h
    rw [CountTree.insert]
    by_cases he : w = a
    · rw [if_pos he]
      exact sorted_mid.mpr ⟨hl, hr, hlt, hgt⟩
    · rw [if_neg he]
      by_cases hw : w < a
      · rw [if_pos hw, Ordered, toList_fixLeft]
        refine sorted_mid.mpr ⟨ihl hl, hr, ?_, hgt⟩
        intro e hm
        rcases mem_insert hm with hm | ⟨rfl, -⟩
        · exact hlt e hm
        · exact hw
      · rw [if_neg hw, Ordered, toList_fixRight]
        refine sorted_mid.mpr ⟨hl, ihr hr, hlt, ?_⟩
        intro e hm
        rcases mem_insert hm with hm | ⟨rfl, -⟩
        · exact hgt e hm
        · exact lt_of_le_of_ne (not_lt.mp hw) (Ne.symm he)

theorem Ordered.erase {t : CountTree α} (h : Ordered t) (w : α) : Ordered (erase w t) := by
  induction t with
  | nil => exact h
  | node d c a l r ihl ihr =>
    obtain ⟨hl, hr, hlt, hgt⟩ := ordered_node.mp h
    rw [CountTree.erase]
    by_cases he : w = a
    · rw [if_pos he]
      by_cases hc : 1 < c
      · rw [if_pos hc, Ordered, toList_rebalance]
        exact sorted_mid.mpr ⟨hl, hr, hlt, hgt⟩
      · rw [if_neg hc, Ordered, toList_join]
        exact List.Pairwise.sublist ((List.sublist_cons_self (a, c) (toList r)).append_left (toList l)) h
    · rw [if_neg he]
      by_cases hw : w < a
      · rw [if_pos hw, Ordered, toList_rebalance]
        refine sorted_mid.mpr ⟨ihl hl, hr, ?_, hgt⟩
        intro e hm
        rcases mem_erase hm with hm | ⟨c', hm, he', -⟩
        · exact hlt e hm
        · exact he' ▸ hw
      · rw [if_neg hw, Ordered, toList_rebalance]
        refine sorted_mid.mpr ⟨hl, ihr hr, hlt, ?_⟩
        intro e hm
        rcases mem_erase hm with hm | ⟨c', hm, he', -⟩
        · exact hgt e hm
        · exact he' ▸ lt_of_le_of_ne (not_lt.mp hw) (Ne.symm he)

/-- The search finds the keys. -/
theorem present_iff {t : CountTree α} (h : Ordered t) (w : α) : present w t = true ↔ ∃ c, (w, c) ∈ toList t := by
  induction t with
  | nil => simp [present]
  | node d c a l r ihl ihr =>
    obtain ⟨hl, hr, hlt, hgt⟩ := ordered_node.mp h
    simp only [present, toList_node, List.mem_append, List.mem_cons]
    by_cases he : w = a
    · rw [if_pos he]
      exact ⟨fun _ => ⟨c, Or.inr (Or.inl (by rw [he]))⟩, fun _ => rfl⟩
    · rw [if_neg he]
      by_cases hw : w < a
      · rw [if_pos hw, ihl hl]
        constructor
        · intro h
          obtain ⟨c', hc⟩ := h
          exact ⟨c', Or.inl hc⟩
        · intro h
          rcases h with ⟨c', hc | hc | hc⟩
          · exact ⟨c', hc⟩
          · exact absurd (Prod.mk.inj hc).1 he
          · exact absurd (hgt _ hc) (not_lt_of_gt hw)
      · rw [if_neg hw, ihr hr]
        constructor
        · intro h
          obtain ⟨c', hc⟩ := h
          exact ⟨c', Or.inr (Or.inr hc)⟩
        · intro h
          rcases h with ⟨c', hc | hc | hc⟩
          · exact absurd (hlt _ hc) hw
          · exact absurd (Prod.mk.inj hc).1 he
          · exact ⟨c', hc⟩

/-- A key is found in the tree iff it is in its multiset. -/
theorem present_iff_mem {t : CountTree α} (h : Ordered t) (hpos : Positive t) (w : α) :
    present w t = true ↔ w ∈ bag t := by
  rw [present_iff h, bag, mem_bagOf]
  constructor
  · intro hc
    obtain ⟨c, hc⟩ := hc
    exact ⟨c, hc, hpos _ hc⟩
  · intro hc
    obtain ⟨c, hc, -⟩ := hc
    exact ⟨c, hc⟩

/-! ## The least key as a node to erase -/

omit [LinearOrder α] in
theorem keys_setMin (k : Nat) (t : CountTree α) : (toList (setMin k t)).map Prod.fst = (toList t).map Prod.fst := by
  induction t with
  | nil => rfl
  | node d c a l r ihl _ =>
    cases l with
    | nil => rfl
    | node d' c' a' l' r' =>
      rw [setMin, toList_node, toList_node, List.map_append, List.map_append, ihl, List.map_cons]

theorem Ordered.setMin {t : CountTree α} (h : Ordered t) (k : Nat) : Ordered (setMin k t) := by
  have hkeys : ((toList t).map Prod.fst).Pairwise (· < ·) := List.pairwise_map.mpr h
  rw [← keys_setMin k] at hkeys
  exact List.pairwise_map.mp hkeys

omit [LinearOrder α] in
theorem min?_mem {t : CountTree α} {e : α × Nat} (h : min? t = some e) : e ∈ toList t := by
  rw [toList_eraseMin (a := e.1) (c := e.2) h]
  exact List.mem_cons_self

/-- Erasing the least key, once its count is 1, is `eraseMin`. -/
theorem erase_setMin {t : CountTree α} {a : α} {c : Nat} (h : Ordered t) (hm : min? t = some (a, c)) :
    erase a (setMin 1 t) = eraseMin t := by
  induction t with
  | nil => cases hm
  | node d c' a' l r ihl _ =>
    cases l with
    | nil =>
      obtain ⟨rfl, rfl⟩ := Prod.mk.inj (Option.some.inj hm)
      simp [CountTree.setMin, erase, eraseMin, join]
    | node d' c'' a'' l' r' =>
      obtain ⟨hl, -, hlt, -⟩ := ordered_node.mp h
      have ha : a < a' := hlt (a, c) (min?_mem hm)
      rw [CountTree.setMin, erase, if_neg (ne_of_lt ha), if_pos ha, ihl hl hm, eraseMin]

/-- No other key takes that place. -/
theorem heir_setMin {t : CountTree α} {a : α} {c : Nat} (h : Ordered t) (hm : min? t = some (a, c)) :
    heir a (setMin 1 t) = none := by
  induction t with
  | nil => cases hm
  | node d c' a' l r ihl _ =>
    cases l with
    | nil =>
      obtain ⟨rfl, rfl⟩ := Prod.mk.inj (Option.some.inj hm)
      rw [CountTree.setMin, heir, if_pos rfl, if_neg (Nat.lt_irrefl 1), joinKey]
    | node d' c'' a'' l' r' =>
      obtain ⟨hl, -, hlt, -⟩ := ordered_node.mp h
      have ha : a < a' := hlt (a, c) (min?_mem hm)
      rw [CountTree.setMin, heir, if_neg (ne_of_lt ha), if_pos ha, ihl hl hm]

/-- Only a key that is counted off for the last time has an heir. -/
theorem find_of_heir {t : CountTree α} {w b : α} (h : heir w t = some b) : find w t ≤ 1 := by
  induction t with
  | nil => cases h
  | node d c a l r ihl ihr =>
    rw [heir] at h
    rw [find]
    split at h
    · split at h
      · cases h
      · rename_i he hc
        rw [if_pos he]
        omega
    · rename_i he
      rw [if_neg he]
      split at h
      · rename_i hlt
        rw [if_pos hlt]
        exact ihl h
      · rename_i hlt
        rw [if_neg hlt]
        exact ihr h

/-- `find` answers the multiplicity. -/
theorem find_eq {t : CountTree α} (h : Ordered t) (w : α) : find w t = (bag t).count w := by
  unfold bag
  induction t with
  | nil => rfl
  | node d c a l r ihl ihr =>
    obtain ⟨hl, hr, hlt, hgt⟩ := ordered_node.mp h
    rw [find, toList_node, bagOf_append, bagOf_cons, Multiset.count_add, Multiset.count_add, Multiset.count_replicate]
    by_cases he : w = a
    · subst he
      have h1 : (bagOf (toList l)).count w = 0 :=
        Multiset.count_eq_zero.mpr (notMem_bagOf fun e he => ne_of_lt (hlt e he))
      have h2 : (bagOf (toList r)).count w = 0 :=
        Multiset.count_eq_zero.mpr (notMem_bagOf fun e he => ne_of_gt (hgt e he))
      rw [if_pos rfl, if_pos rfl, h1, h2]; omega
    · rw [if_neg he, if_neg (Ne.symm he)]
      by_cases hw : w < a
      · have h2 : (bagOf (toList r)).count w = 0 :=
          Multiset.count_eq_zero.mpr (notMem_bagOf fun e he => ne_of_gt (lt_trans hw (hgt e he)))
        rw [if_pos hw, ihl hl, h2]; omega
      · have h1 : (bagOf (toList l)).count w = 0 :=
          Multiset.count_eq_zero.mpr (notMem_bagOf fun e he => ne_of_lt (lt_of_lt_of_le (hlt e he) (not_lt.mp hw)))
        rw [if_neg hw, ihr hr, h1]; omega

theorem bag_erase {t : CountTree α} (h : Ordered t) (w : α) : bag (erase w t) = (bag t).erase w := by
  unfold bag
  induction t with
  | nil => rfl
  | node d c a l r ihl ihr =>
    obtain ⟨hl, hr, hlt, hgt⟩ := ordered_node.mp h
    rw [toList_node, bagOf_append, bagOf_cons, CountTree.erase]
    by_cases he : w = a
    · subst he
      rw [if_pos rfl]
      cases c with
      | zero =>
        have hnl : w ∉ bagOf (toList l) := notMem_bagOf fun e he => ne_of_lt (hlt e he)
        have hnr : w ∉ bagOf (toList r) := notMem_bagOf fun e he => ne_of_gt (hgt e he)
        rw [if_neg (by omega), toList_join, bagOf_append, Multiset.replicate_zero, zero_add,
          Multiset.erase_of_notMem fun hm => (Multiset.mem_add.mp hm).elim hnl hnr]
      | succ k =>
        rw [Multiset.replicate_succ, Multiset.cons_add, Multiset.add_cons, Multiset.erase_cons_head]
        by_cases hc : 1 < k + 1
        · rw [if_pos hc, toList_rebalance, bagOf_append, bagOf_cons, Nat.add_sub_cancel]
        · obtain rfl : k = 0 := by omega
          rw [if_neg hc, toList_join, bagOf_append, Multiset.replicate_zero, zero_add]
    · rw [if_neg he]
      have hrep : w ∉ Multiset.replicate c a := fun hm => he (Multiset.eq_of_mem_replicate hm)
      by_cases hw : w < a
      · have hnr : w ∉ bagOf (toList r) := notMem_bagOf fun e he => ne_of_gt (lt_trans hw (hgt e he))
        rw [if_pos hw, toList_rebalance, bagOf_append, bagOf_cons, ihl hl,
          erase_add_of_notMem fun hm => (Multiset.mem_add.mp hm).elim hrep hnr]
      · have hnl : w ∉ bagOf (toList l) := notMem_bagOf fun e he => ne_of_lt (lt_of_lt_of_le (hlt e he) (not_lt.mp hw))
        rw [if_neg hw, toList_rebalance, bagOf_append, bagOf_cons, ihr hr, add_comm (bagOf (toList l)),
          add_comm (bagOf (toList l)), erase_add_of_notMem hnl, add_comm (Multiset.replicate c a),
          add_comm (Multiset.replicate c a), erase_add_of_notMem hrep]

/-- A key that counts is there. -/
theorem present_of_find {t : CountTree α} {w : α} (h : find w t ≠ 0) : present w t = true := by
  induction t with
  | nil => exact absurd rfl h
  | node d c a l r ihl ihr =>
    rw [find] at h
    rw [present]
    split_ifs at h ⊢ with he hw
    · rfl
    · exact ihl h
    · exact ihr h

/-- What an insertion does to the count of any key. -/
theorem find_insert {t : CountTree α} (h : Ordered t) (next : Nat → Nat) (w v : α) :
    find v (insert next w t) = if v = w then if present w t then next (find w t) else 1 else find v t := by
  rw [find_eq (h.insert next w), find_eq h, find_eq h]
  unfold bag
  induction t with
  | nil =>
    by_cases hv : v = w
    · simp [insert, present, hv]
    · simp [insert, hv]
  | node d c a l r ihl ihr =>
    obtain ⟨hl, hr, hlt, hgt⟩ := ordered_node.mp h
    -- keys on the other side of `a` do not count
    have hl0 : ∀ x, ¬ x < a → (bagOf (toList l)).count x = 0 := fun x hx =>
      Multiset.count_eq_zero.mpr (notMem_bagOf fun e he => ne_of_lt (lt_of_lt_of_le (hlt e he) (not_lt.mp hx)))
    have hr0 : ∀ x, ¬ a < x → (bagOf (toList r)).count x = 0 := fun x hx =>
      Multiset.count_eq_zero.mpr (notMem_bagOf fun e he => ne_of_gt (lt_of_le_of_lt (not_lt.mp hx) (hgt e he)))
    rw [CountTree.insert, present]
    by_cases he : w = a
    · subst he
      simp only [if_true, toList_mk, toList_node, bagOf_append, bagOf_cons, Multiset.count_add, Multiset.count_replicate,
        hl0 w (lt_irrefl w), hr0 w (lt_irrefl w), Nat.zero_add, Nat.add_zero]
      by_cases hv : v = w
      · subst hv
        simp [hl0 v (lt_irrefl v), hr0 v (lt_irrefl v)]
      · simp [hv, Ne.symm hv]
    · rw [if_neg he, if_neg he]
      have hea : ¬ a = w := fun h' => he h'.symm
      by_cases hw : w < a
      · have hcount : (bagOf (toList (node d c a l r))).count w = (bagOf (toList l)).count w := by
          simp [Multiset.count_replicate, hea, hr0 w (lt_asymm hw)]
        rw [if_pos hw, if_pos hw, toList_fixLeft, bagOf_append, Multiset.count_add, ihl hl, hcount]
        by_cases hv : v = w
        · subst hv
          simp [Multiset.count_replicate, hea, hr0 v (lt_asymm hw)]
        · simp [hv]
      · have haw : a < w := lt_of_le_of_ne (not_lt.mp hw) hea
        have hcount : (bagOf (toList (node d c a l r))).count w = (bagOf (toList r)).count w := by
          simp [Multiset.count_replicate, hea, hl0 w hw]
        rw [if_neg hw, if_neg hw, toList_fixRight, bagOf_append, bagOf_cons, Multiset.count_add, Multiset.count_add,
          ihr hr, hcount]
        by_cases hv : v = w
        · subst hv
          simp [Multiset.count_replicate, hea, hl0 v hw]
        · simp [hv]

/-- What a removal does to the count of any key. -/
theorem find_erase {t : CountTree α} (h : Ordered t) (w v : α) :
    find v (erase w t) = if v = w then find w t - 1 else find v t := by
  rw [find_eq (h.erase w), find_eq h, find_eq h, bag_erase h]
  by_cases hv : v = w
  · rw [if_pos hv, hv, Multiset.count_erase_self]
  · rw [if_neg hv, Multiset.count_erase_of_ne hv]

theorem find_of_absent {t : CountTree α} {w : α} (h : present w t = false) : find w t = 0 := by
  by_contra hne
  rw [present_of_find hne] at h
  cases h

/-- The last occurrence takes its entry along. -/
theorem present_erase {t : CountTree α} (h : Ordered t) {w : α} (hf : find w t = 1) : present w (erase w t) = false := by
  by_contra hp
  rw [Bool.not_eq_false, present_iff (h.erase w)] at hp
  obtain ⟨c, hc⟩ := hp
  have hzero : c = 0 := by
    rw [← count_of_mem (h.erase w) hc]
    exact (find_eq (h.erase w) w).symm.trans (by rw [find_erase h, if_pos rfl, hf])
  subst hzero
  rcases mem_erase hc with hm | ⟨-, -, -, hpos⟩
  · rw [find_eq h, bag, count_of_mem h hm] at hf
    cases hf
  · exact Nat.lt_irrefl 0 hpos

end CountTree

end AvlTree
