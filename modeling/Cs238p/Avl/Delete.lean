/-
  Cs238p.Avl.Delete — `delete` erases.

  `delete_spec`: `delete` turns a balanced tree with increasing words into one whose words are
  those of `CountTree.erase`, and leaves every cell that is not the tree's alone; it stops
  only for want of room for a copy, or at an item that is `NULL`. A node with two children
  takes over the word and the count of the next one, whose count is set to 1 before it is
  deleted by its own string (`erased_heir`).
-/
import Cs238p.Avl.Update

namespace Cs238p.Avl

open ByteMemory Scm AvlTree CountTree

variable {s s' : AvlSt} {m m' : Mem} {t t' l r : CountTree Loc} {a b : Loc} {F G : Multiset Cell} {p c k : Nat}
  {d : Int} {w : Word} {E : Stop → Prop}

/-! ## The least node -/

theorem cells_setMin (k : Nat) (t : CountTree Loc) : cells (setMin k t) = cells t := by
  induction t with
  | nil => rfl
  | node d c a l r ihl _ =>
    cases l with
    | nil => rfl
    | node d' c' a' l' r' => rw [setMin, cells_node, cells_node, ihl]

theorem ptr_setMin (k : Nat) (t : CountTree Loc) : ptr (setMin k t) = ptr t := by
  unfold setMin
  split <;> rfl

/-- `find_min` ends at the least node, not deeper than the tree. -/
theorem findMin_spec (h : Shaped m t) (ha : t.Avl) {fuel : Nat} (hfuel : t.delta < fuel) (hm : t.min? = some (b, c)) :
    findMin m fuel (ptr t) = .ok b.addr := by
  induction t generalizing fuel with
  | nil => cases hm
  | node d c' a l r ihl _ =>
    obtain ⟨⟨hl1, hl2⟩, -⟩ := sub_bounds ha
    have hdl := ha.2.2.1
    rw [delta_node] at hfuel
    obtain ⟨fuel, rfl⟩ : ∃ k, fuel = k + 1 := ⟨fuel - 1, by omega⟩
    rw [findMin, ptr_node, h.deref_eq]
    simp only [ok_bind]
    cases l with
    | nil =>
      obtain ⟨rfl, rfl⟩ := Prod.mk.inj (Option.some.inj hm)
      rfl
    | node d' c'' a' l' r' =>
      rw [ptr_node, if_neg h.2.2.2.2.1.2.2.1.1]
      exact ihl h.2.2.2.2.1 hdl (by rw [delta_node] at *; omega) hm

/-- The record of the least node. -/
theorem Shaped.min (h : Shaped m t) (hm : t.min? = some (b, c)) :
    (nodeAt m b.addr).item = b.str ∧ (nodeAt m b.addr).count = c := by
  induction t with
  | nil => cases hm
  | node d c' a l r ihl _ =>
    cases l with
    | nil =>
      obtain ⟨rfl, rfl⟩ := Prod.mk.inj (Option.some.inj hm)
      rw [h.1]
      exact ⟨rfl, rfl⟩
    | node d' c'' a' l' r' => exact ihl h.2.2.2.2.1 hm

theorem Owns.min_str (h : Owns s t F) (hm : t.min? = some (b, c)) (hb : b.str ≠ 0) :
    s.strAt b.str = .ok b.word.bytes := by
  induction t generalizing F with
  | nil => cases hm
  | node d c' a l r ihl _ =>
    cases l with
    | nil =>
      obtain ⟨rfl, rfl⟩ := Prod.mk.inj (Option.some.inj hm)
      exact h.strAt hb
    | node d' c'' a' l' r' => exact ihl h.left hm

theorem strAt_null (h : p = 0) : s.strAt p = .error .null := if_pos h

theorem whole_iff : Whole t ↔ ∀ e ∈ t.toList, Loc.str e.1 ≠ 0 := by
  induction t with
  | nil => simp [Whole]
  | node d c a l r ihl ihr =>
    rw [whole_node, ihl, ihr, toList_node]
    simp only [List.mem_append, List.mem_cons]
    constructor
    · intro h e he
      rcases he with he | rfl | he
      · exact h.2.1 e he
      · exact h.1
      · exact h.2.2 e he
    · exact fun h => ⟨h (a, c) (Or.inr (Or.inl rfl)), fun e he => h e (Or.inl he), fun e he => h e (Or.inr (Or.inr he))⟩

@[simp] theorem whole_rebalance (c : Nat) (a : Loc) (l r : CountTree Loc) :
    Whole (CountTree.rebalance c a l r) ↔ a.str ≠ 0 ∧ Whole l ∧ Whole r := by
  rw [whole_iff, toList_rebalance, ← toList_node 0, ← whole_iff, whole_node]

@[simp] theorem whole_setMin (k : Nat) (t : CountTree Loc) : Whole (setMin k t) ↔ Whole t := by
  induction t with
  | nil => exact Iff.rfl
  | node d c a l r ihl _ =>
    cases l with
    | nil => exact Iff.rfl
    | node d' c' a' l' r' => rw [CountTree.setMin, whole_node, whole_node, ihl]

theorem Whole.min (h : Whole t) (hm : t.min? = some (b, c)) : b.str ≠ 0 := whole_iff.mp h _ (min?_mem hm)

/-- The count of the least node is written. -/
theorem Shaped.setMin (h : Shaped m t) (hsep : Sep (cells t)) (hm : t.min? = some (b, c)) (hk : k < 2 ^ 64) :
    Shaped (setCount m b.addr k) (setMin k t) ∧ Within (cells t) m (setCount m b.addr k) := by
  induction t with
  | nil => cases hm
  | node d c' a l r ihl _ =>
    cases l with
    | nil =>
      obtain ⟨rfl, rfl⟩ := Prod.mk.inj (Option.some.inj hm)
      have he := edit_setCount h.1 hk
      exact ⟨h.edit hsep he, within_add_left he.2⟩
    | node d' c'' a' l' r' =>
      have hsum : cells (node d c' a (node d' c'' a' l' r') r) =
          cells (node d' c'' a' l' r') + ({nodeCell a} + (strCells a + cells r)) := by
        rw [cells_node]; abel
      have hsep' := hsum ▸ hsep
      obtain ⟨hst, hw⟩ := ihl h.2.2.2.2.1 hsep'.left hm
      have hag := hsep'.agree hw
      simp only [agree_add] at hag
      rw [hsum]
      refine ⟨⟨?_, h.2.1.congr hag.2.1, h.2.2.1, h.2.2.2.1, hst, h.2.2.2.2.2.congr hag.2.2⟩, within_add_left hw⟩
      rw [nodeAt_congr hag.1, h.1, ptr_setMin]

/-! ## The parts of `delete` -/

/-- Both blocks of a node are freed. -/
theorem discard_spec (h : Holds s.scm ({nodeCell a} + (strCells a + G))) (ha : a.str ≠ 0)
    (hn : (nodeAt s.mem a.addr).item = a.str) :
    ∃ s', discard s a.addr = .ok s' ∧ Holds s'.scm G ∧ Frame s s' G := by
  rw [strCells_of_ne ha] at h
  have hsum : ({nodeCell a} : Multiset Cell) + ({strCell a} + G) = {strCell a} + ({nodeCell a} + G) := by abel
  obtain ⟨s1, he1, hh1, hf1⟩ := free_spec (hsum ▸ h)
  obtain ⟨s2, he2, hh2, hf2⟩ := free_spec hh1
  refine ⟨s2, ?_, hh2, (frame_add.mp hf1).2.trans hf2⟩
  rw [discard, hn, he1]
  exact he2

theorem restore_spec (h : Owns s (node d c a l r) F) (hl : l.Avl) (hr : r.Avl) (hd : (l.delta - r.delta).natAbs ≤ 2)
    (hbl : l.delta < 2 ^ 28) :
    ∃ s', restore s a.addr = .ok (ptr (CountTree.rebalance c a l r), s') ∧ Owns s' (CountTree.rebalance c a l r) F ∧
      Frame s s' F := by
  obtain ⟨m', he, hst, hw⟩ := rebalance_shaped h.shaped h.sep hl hr hd hbl
  obtain ⟨ho, hf⟩ := h.put hst (cells_rebalance c a l r) hw
  exact ⟨s.put m', by rw [restore, he]; rfl, ho, hf⟩

/-- A copy of the word does not end inside the mapping. -/
def Cramped (s : AvlSt) (w : Word) (e : Stop) : Prop :=
  Full e ∧ s.fails.headD false = false ∧ ¬ HasRoom s.scm w.bytes

/-- A copy of the word, or `NULL`. -/
theorem strdup_loc (h : Holds s.scm F) (p : Nat) (w : Word) :
    Outcome (Cramped s w) (strdup s w.bytes) fun x => (s.fails.headD false = false → HasRoom s.scm w.bytes ∧ x.1 ≠ 0) ∧
      x.1 < 2 ^ 64 ∧ Holds x.2.scm (strCells ⟨p, x.1, w⟩ + F) ∧ Frame s x.2 F ∧ HasWord x.2.mem ⟨p, x.1, w⟩ := by
  cases hf : s.fails.headD false with
  | true =>
    rw [strdup, allocate_failed hf]
    refine .ok ⟨fun hno => ?_, Nat.two_pow_pos 64, ?_, ⟨agree_refl _ _, rfl, tail_nil⟩, fun h0 => absurd rfl h0⟩
    · cases hno
    · rw [strCells_of_null rfl, zero_add]
      exact h
  | false =>
    refine ((strdup_spec h hf w.bytes).weaken fun e he => ⟨he.1, hf, he.2⟩).mono ?_
    intro q hq
    obtain ⟨q, s1⟩ := q
    obtain ⟨hroom, hh1, hf1, hread⟩ := hq
    obtain ⟨hq0, hq1⟩ := holds_addr hh1
    refine ⟨fun _ => ⟨hroom, hq0⟩, hq1, ?_, hf1, fun _ => hread⟩
    rw [strCells_of_ne hq0]
    exact hh1

/-- The node with the word in the new block `q`, and with the count `k`. -/
def copied (s : AvlSt) (root q k : Nat) : AvlSt :=
  let s := s.put (setItem s.mem root q)
  s.put (setCount s.mem root k)

/-- The node has the next word, in a new block if there is one, and its count; the old block
    still is in use. -/
theorem copied_spec (h : Owns s (node d c a l r) F) (hm : r.min? = some (b, k)) :
    Outcome (Cramped s b.word) (strdup s b.word.bytes) fun x =>
      (s.fails.headD false = false → HasRoom s.scm b.word.bytes ∧ x.1 ≠ 0) ∧
      (nodeAt (setItem x.2.mem a.addr x.1) b.addr).count = k ∧ Frame s (copied x.2 a.addr x.1 k) F ∧
      Owns (copied x.2 a.addr x.1 k) (node d k ⟨a.addr, x.1, b.word⟩ l r) (strCells a + F) := by
  have hp := h.shaped.2.2.1
  refine (strdup_loc h.holds a.addr b.word).mono ?_
  intro q hq
  obtain ⟨q, s1⟩ := q
  obtain ⟨hgood, hq1, hh1, hf1, hword⟩ := hq
  obtain ⟨hf1t, hf1⟩ := frame_add.mp hf1
  obtain ⟨hn1, -, -, -, hl1, hr1⟩ := h.shaped.congr hf1t.agree
  let a' : Loc := ⟨a.addr, q, b.word⟩
  have hsum : strCells a' + (cells (node d c a l r) + F) =
      {nodeCell a'} + (strCells a' + (cells l + cells r) + (strCells a + F)) := by
    simp only [cells_node, nodeCell, a']; abel
  have he2 := edit_setItem hn1 hq1
  obtain ⟨hh2, hf2⟩ := holds_put (hsum ▸ hh1) he2.2
  obtain ⟨hf2t, hf2⟩ := frame_add.mp hf2
  have hag2 := hf2t.agree
  simp only [agree_add] at hag2
  have h2 : Owns (s1.put (setItem s1.mem a.addr q)) (node d c a' l r) (strCells a + F) :=
    ⟨by rw [cells_node, Multiset.add_assoc]; exact hh2,
      he2.1, hword.congr hag2.1, hp, hq1, hl1.congr hag2.2.1, hr1.congr hag2.2.2⟩
  have hk : (nodeAt (setItem s1.mem a.addr q) b.addr).count = k := (h2.shaped.2.2.2.2.2.min hm).2
  have hklt : k < 2 ^ 64 := by rw [← hk]; exact Mem.load_lt _ _ _
  have he3 := edit_setCount h2.shaped.1 hklt
  obtain ⟨h3, hf3⟩ := h2.put (h2.shaped.edit h2.sep he3) rfl (within_add_left he3.2)
  exact ⟨hgood, hk, (hf1.trans (frame_add.mp hf2).2).trans (frame_add.mp hf3).2, h3⟩

/-- The node has the next word and its count, in a new block, and the next node's count
    is 1. -/
theorem takeOver_spec (h : Owns s (node d c a l r) F) (ha : a.str ≠ 0) (hm : r.min? = some (b, k)) :
    Outcome (fun e => Cramped s b.word e ∨ e = .null ∧ b.str = 0) (takeOver s a.addr b.addr) fun s' => ∃ q,
      b.str ≠ 0 ∧ (s.fails.headD false = false → HasRoom s.scm b.word.bytes ∧ q ≠ 0) ∧ Frame s s' F ∧
      Owns s' (node d k ⟨a.addr, q, b.word⟩ l (setMin 1 r)) F := by
  unfold takeOver
  rw [(h.shaped.2.2.2.2.2.min hm).1, h.shaped.1]
  by_cases hb : b.str = 0
  · simp only [strAt_null hb, error_bind]
    exact .error (Or.inr ⟨rfl, hb⟩)
  simp only [h.right.min_str hm hb, ok_bind]
  refine ((copied_spec h hm).weaken fun e he => Or.inl he).bind ?_
  intro q hq
  obtain ⟨q, s1⟩ := q
  obtain ⟨hgood, hk, hf3, h3⟩ := hq
  let a' : Loc := ⟨a.addr, q, b.word⟩
  have hfree : cells (node d k a' l r) + (strCells a + F) = {strCell a} + (cells (node d k a' l r) + F) := by
    rw [strCells_of_ne ha]; abel
  obtain ⟨s4, he4, hh4, hf4⟩ := free_spec (hfree ▸ h3.holds)
  obtain ⟨hf4t, hf4⟩ := frame_add.mp hf4
  have h4 : Owns s4 (node d k a' l r) F := ⟨hh4, h3.shaped.congr hf4t.agree⟩
  -- the next node's count
  obtain ⟨hst5, hw5⟩ := h4.right.shaped.setMin h4.right.sep hm (show 1 < 2 ^ 64 by decide)
  have hrest : cells (node d k a' l r) = cells r + ({nodeCell a'} + (strCells a' + cells l)) := by
    rw [cells_node]; abel
  have hag5 := (hrest ▸ h4.sep).agree hw5
  simp only [agree_add] at hag5
  have hstored : Shaped (setCount s4.mem b.addr 1) (node d k a' l (setMin 1 r)) := by
    obtain ⟨hn, hs, hpa, hqa, hl, -⟩ := h4.shaped
    exact ⟨by rw [nodeAt_congr hag5.1, hn, ptr_setMin], hs.congr hag5.2.1, hpa, hqa, hl.congr hag5.2.2, hst5⟩
  obtain ⟨h5, hf5⟩ := h4.put hstored (by rw [cells_node, cells_node, cells_setMin])
    (by rw [hrest]; exact within_add_left hw5)
  simp only [copied, mem_put] at he4
  simp only [mem_put, hk]
  rw [he4]
  exact .ok ⟨q, hb, hgood, (hf3.trans hf4).trans hf5, h5⟩

/-- The next node, with its count set to 1, still has its own string. -/
theorem next_key (h : Owns s (node d c a l (setMin 1 r)) F) (hm : r.min? = some (b, k)) (hb : b.str ≠ 0) :
    (Str.region (nodeAt s.mem b.addr).item).get s = .ok b.word.bytes := by
  have hm1 := @min?_setMin _ 1 _ _ _ hm
  rw [Str.get, (h.shaped.2.2.2.2.2.min hm1).1]
  exact h.right.min_str hm1 hb

/-! ## Deletion -/

/-- What `delete` leaves of `t`. -/
def Erased (s : AvlSt) (t : CountTree Loc) (T : CountTree Word) (F : Multiset Cell) (q : Nat × AvlSt) : Prop :=
  ∃ t', q.1 = ptr t' ∧ words t' = T ∧ Owns q.2 t' F ∧ Frame s q.2 F ∧ (s.fails = [] → Whole t → Whole t')

@[simp] theorem words_rebalance (c : Nat) (a : Loc) (l r : CountTree Loc) :
    words (CountTree.rebalance c a l r) = CountTree.rebalance c a.word (words l) (words r) := map_rebalance _ _ _ _ _

/-- The last part of `delete`, from a state where the node has its new children. -/
theorem erased_restore {T : CountTree Word} (hf : Frame s s' F) (h : Owns s' (node d c a l r) F) (hl : l.Avl)
    (hr : r.Avl) (hd : (l.delta - r.delta).natAbs ≤ 2) (hbl : l.delta < 2 ^ 28)
    (hT : CountTree.rebalance c a.word (words l) (words r) = T)
    (hw : s.fails = [] → Whole t → a.str ≠ 0 ∧ Whole l ∧ Whole r) : Outcome E (restore s' a.addr) (Erased s t T F) := by
  obtain ⟨s'', he, ho, hf'⟩ := restore_spec h hl hr hd hbl
  rw [he]
  exact .ok ⟨_, rfl, by rw [words_rebalance, hT], ho, hf.trans hf', fun hs ht => (whole_rebalance c a l r).mpr (hw hs ht)⟩

/-- A subtree that has lost a node. -/
theorem shrunk {x x' : CountTree Loc} {T : CountTree Word} (hw : words x' = T)
    (hT : T.Avl ∧ T.delta ≤ (words x).delta ∧ (words x).delta - 1 ≤ T.delta) :
    x'.Avl ∧ x'.delta ≤ x.delta ∧ x.delta - 1 ≤ x'.delta := by
  rwa [← hw, avl_words, delta_words, delta_words] at hT

/-- The left child is what a deletion there left. -/
theorem erased_left {T : CountTree Word} {res : Except Stop (Nat × AvlSt)} (h : Owns s (node d c a l r) F)
    (hr : r.Avl) (hd : (l.delta - r.delta).natAbs ≤ 1) (hdl : l.delta < 2 ^ 27)
    (hT : T.Avl ∧ T.delta ≤ (words l).delta ∧ (words l).delta - 1 ≤ T.delta)
    (hres : Outcome E res (Erased s l T ({nodeCell a} + (strCells a + (cells r + F))))) :
    Outcome E (res >>= fun q => restore (q.2.put (setLeft q.2.mem a.addr q.1)) a.addr)
      (Erased s (node d c a l r) (CountTree.rebalance c a.word T (words r)) F) := by
  apply hres.bind
  intro q hq
  obtain ⟨left, s1⟩ := q
  obtain ⟨l', rfl, hw, ho, hfr, hwhole⟩ := hq
  obtain ⟨hrest, hfr⟩ := frame_rest hfr
  obtain ⟨ho2, hf2⟩ := owns_setLeft h.shaped ho hrest.agree
  obtain ⟨havl, h1, h2⟩ := shrunk hw hT
  exact erased_restore (hfr.trans hf2) ho2 havl hr (by omega) (by omega) (by rw [hw])
    fun hs ht => ⟨ht.1, hwhole hs ht.2.1, ht.2.2⟩

theorem erased_right {T : CountTree Word} {res : Except Stop (Nat × AvlSt)} (h : Owns s (node d c a l r) F)
    (hl : l.Avl) (hd : (l.delta - r.delta).natAbs ≤ 1) (hdl : l.delta < 2 ^ 27)
    (hT : T.Avl ∧ T.delta ≤ (words r).delta ∧ (words r).delta - 1 ≤ T.delta)
    (hres : Outcome E res (Erased s r T ({nodeCell a} + (strCells a + (cells l + F))))) :
    Outcome E (res >>= fun q => restore (q.2.put (setRight q.2.mem a.addr q.1)) a.addr)
      (Erased s (node d c a l r) (CountTree.rebalance c a.word (words l) T) F) := by
  apply hres.bind
  intro q hq
  obtain ⟨right, s1⟩ := q
  obtain ⟨r', rfl, hw, ho, hfr, hwhole⟩ := hq
  obtain ⟨hrest, hfr⟩ := frame_rest hfr
  obtain ⟨ho2, hf2⟩ := owns_setRight h.shaped ho hrest.agree
  obtain ⟨havl, h1, h2⟩ := shrunk hw hT
  exact erased_restore (hfr.trans hf2) ho2 hl havl (by omega) (by omega) (by rw [hw])
    fun hs ht => ⟨ht.1, ht.2.1, hwhole hs ht.2.2⟩

/-- From the state that the copy of another word leaves. -/
theorem Erased.of_frame {T : CountTree Word} {q : Nat × AvlSt} (hf : Frame s s' F)
    (hw : s.fails = [] → Whole t → Whole t') (h : Erased s' t' T F q) : Erased s t T F q := by
  obtain ⟨t₁, hq, ht, ho, hfr, hwhole⟩ := h
  exact ⟨t₁, hq, ht, ho, hf.trans hfr, fun hs hwt => hwhole (hf.fails hs) (hw hs hwt)⟩

/-- A node without one of its children: the other one takes the place. -/
theorem erased_discard {x : CountTree Loc} (h : Owns s (node d c a l r) F) (ha : a.str ≠ 0) (hx : Shaped s.mem x)
    (hsum : cells (node d c a l r) + F = {nodeCell a} + (strCells a + (cells x + F)))
    (hw : Whole (node d c a l r) → Whole x) :
    Outcome E (discard s a.addr >>= fun s' => pure (ptr x, s')) (Erased s (node d c a l r) (words x) F) := by
  obtain ⟨s1, he1, hh1, hf1⟩ := discard_spec (hsum ▸ h.holds) ha (by rw [h.shaped.1])
  obtain ⟨hf1x, hf1⟩ := frame_add.mp hf1
  rw [he1]
  exact .ok ⟨x, rfl, rfl, ⟨hh1, hx.congr hf1x.agree⟩, hf1, fun _ => hw⟩

/-- The copy of the word that takes the place of `w` ends inside the mapping. -/
def HeirFits (s : AvlSt) (T : CountTree Word) (w : Word) : Prop := ∀ b, T.heir w = some b → HasRoom s.scm b.bytes

/-- That copy does not, or the item of a node is `NULL`. -/
def Stuck (s : AvlSt) (t : CountTree Loc) (w : Word) (e : Stop) : Prop :=
  Full e ∧ s.fails.headD false = false ∧ ¬ HeirFits s (words t) w ∨ e = .null ∧ ¬ Whole t

/-- Want of room, at the last occurrence of a word: only then another word may be copied. -/
def Spent (T : CountTree Word) (w : Word) (e : Stop) : Prop := Full e ∧ T.find w ≤ 1

theorem Stuck.spent {e : Stop} (h : Stuck s t w e) (hw : Whole t) : Spent (words t) w e := by
  rcases h with ⟨he, -, hno⟩ | ⟨-, hno⟩
  · refine ⟨he, ?_⟩
    by_contra hmany
    exact hno fun b hb => absurd (find_of_heir hb) hmany
  · exact absurd hw hno

/-- A node with two children: the next word takes its place, and the node of that one is
    deleted. -/
theorem erased_heir {fuel : Nat} (h : Owns s (node d c a l r) F) (ha : a.str ≠ 0) (hl : l.Avl) (hr : r.Avl)
    (hd : (l.delta - r.delta).natAbs ≤ 1) (hdl : l.delta < 2 ^ 27) (hord : (words r).Ordered) (hc : ¬ 1 < c)
    (hln : words l ≠ nil) (hm : r.min? = some (b, k))
    (hrec : ∀ {s₁ : AvlSt} {G : Multiset Cell} {item : Str}, Owns s₁ (setMin 1 r) G →
      item.get s₁ = .ok b.word.bytes → Outcome (Stuck s₁ (setMin 1 r) b.word) (delete fuel s₁ (ptr (setMin 1 r)) item)
        fun q => Erased s₁ (setMin 1 r) ((words (setMin 1 r)).erase b.word) G q) :
    Outcome (Stuck s (node d c a l r) a.word) (do
      let s₁ ← takeOver s a.addr b.addr
      let (right, s₂) ← delete fuel s₁ (ptr r) (.region (nodeAt s₁.mem b.addr).item)
      restore (s₂.put (setRight s₂.mem a.addr right)) a.addr) fun q =>
        (s.fails.headD false = false → HasRoom s.scm b.word.bytes) ∧
          Erased s (node d c a l r) (CountTree.rebalance k b.word (words l) (words r).eraseMin) F q := by
  have hmw : (words r).min? = some (b.word, k) := (min?_map _ _).trans (by rw [hm]; rfl)
  have hwm : words (setMin 1 r) = setMin 1 (words r) := map_setMin _ _ _
  have hheir : (node d c a.word (words l) (words r)).heir a.word = some b.word := by
    rw [heir, if_pos rfl, if_neg hc, joinKey_some hln hmw]
  have hcramped : ∀ e, Cramped s b.word e ∨ e = .null ∧ b.str = 0 → Stuck s (node d c a l r) a.word e := by
    intro e he
    rcases he with ⟨he, hs, hno⟩ | ⟨he, hb⟩
    · exact Or.inl ⟨he, hs, fun hfits => hno (hfits _ hheir)⟩
    · exact Or.inr ⟨he, fun hw => hw.2.2.min hm hb⟩
  apply ((takeOver_spec h ha hm).weaken hcramped).bind
  intro s₁ hs₁
  obtain ⟨q, hb, hgood, hf₁, h₁⟩ := hs₁
  have hres := hrec h₁.right (next_key h₁ hm hb)
  rw [ptr_setMin, hwm, erase_setMin hord hmw] at hres
  -- the next word is there once, so that no other one is copied for it
  have hfits : HeirFits s₁ (words (setMin 1 r)) b.word := by
    intro b' hb'
    rw [hwm, heir_setMin hord hmw] at hb'
    cases hb'
  have hstuck : ∀ e, Stuck s₁ (setMin 1 r) b.word e → Stuck s (node d c a l r) a.word e := by
    intro e he
    rcases he with ⟨-, -, hno⟩ | ⟨he, hno⟩
    · exact absurd hfits hno
    · exact Or.inr ⟨he, fun hw => hno ((whole_setMin 1 r).mpr hw.2.2)⟩
  have hshrunk := eraseMin_avl ((avl_words _).mpr hr)
  rw [← delta_setMin 1 (words r), ← hwm] at hshrunk
  have hdone := erased_right h₁ hl (by rwa [delta_setMin]) hdl hshrunk (hres.weaken hstuck)
  refine hdone.mono fun x hx => ⟨fun hs => (hgood hs).1, hx.of_frame hf₁ fun hs hw => ?_⟩
  exact ⟨(hgood (by rw [hs]; rfl)).2, hw.2.1, (whole_setMin 1 r).mpr hw.2.2⟩

theorem delete_spec (fuel : Nat) : ∀ {s : AvlSt} {t : CountTree Loc} {F : Multiset Cell} {item : Str} {w : Word},
    Owns s t F → item.get s = .ok w.bytes → t.Avl → (words t).Ordered → t.delta < 2 ^ 27 → t.delta + 1 < fuel →
    Outcome (Stuck s t w) (delete fuel s (ptr t) item) fun q =>
      (s.fails.headD false = false → HeirFits s (words t) w) ∧ Erased s t ((words t).erase w) F q := by
  induction fuel with
  | zero =>
    intro s t F item w _ _ havl _ _ hfuel
    have := havl.delta_ge
    omega
  | succ fuel ih =>
    intro s t F item w h hitem havl hord hdelta hfuel
    cases t with
    | nil =>
      rw [delete, ptr_nil, if_pos rfl]
      refine .ok ⟨fun _ b hb => ?_, nil, rfl, rfl, h, Frame.refl s F, fun _ => id⟩
      cases hb
    | node d c a l r =>
      obtain ⟨⟨hl1, hl2⟩, hr1, hr2⟩ := sub_bounds havl
      obtain ⟨hordl, hordr, -, -⟩ := ordered_node.mp hord
      change (words l).Ordered at hordl
      change (words r).Ordered at hordr
      obtain ⟨hdep, hd, hl, hr⟩ := havl
      rw [delta_node] at hdelta hfuel
      rw [delete, ptr_node, if_neg h.shaped.2.2.1.1, h.shaped.1, words_node, CountTree.erase]
      by_cases hne : a.str = 0
      · simp only [hitem, strAt_null hne, ok_bind, error_bind]
        exact .error (Or.inr ⟨rfl, fun hw => hw.1 hne⟩)
      simp only [hitem, h.strAt hne, ok_bind]
      rcases lt_trichotomy w a.word with hlt | heq | hgt
      · rw [if_pos (Word.strcmp_lt.mpr hlt), if_neg hlt.ne, if_pos hlt]
        have hheir : HeirFits s (node d c a.word (words l) (words r)) w = HeirFits s (words l) w := by
          rw [HeirFits, HeirFits, heir, if_neg hlt.ne, if_pos hlt]
        rw [hheir]
        have hstuck : ∀ e, Stuck s l w e → Stuck s (node d c a l r) w e := by
          intro e he
          rw [Stuck, words_node, hheir]
          exact he.imp_right fun he => ⟨he.1, fun hw => he.2 hw.2.1⟩
        exact ((ih h.left hitem hl hordl (by omega) (by omega)).weaken hstuck).keep fun hres =>
          erased_left h hr hd (by omega) (erase_avl ((avl_words _).mpr hl)) hres
      · have hle : ¬ strcmp w.bytes a.word.bytes < 0 := fun hs => (Word.strcmp_lt.mp hs).ne heq
        have hge : ¬ strcmp w.bytes a.word.bytes > 0 := fun hs => (Word.strcmp_gt.mp hs).ne' heq
        have hheir : (node d c a.word (words l) (words r)).heir w =
            if 1 < c then none else joinKey (words l) (words r) := by rw [heir, if_pos heq]
        rw [if_neg hle, if_neg hge, if_pos heq]
        simp only [HeirFits, hheir]
        by_cases hc : 1 < c
        · -- one of several
          have hclt : c < 2 ^ 64 := by
            rw [show c = (nodeAt s.mem a.addr).count by rw [h.shaped.1]]
            exact Mem.load_lt _ _ _
          rw [if_pos hc, if_pos hc, if_pos hc]
          have hed := @edit_setCount _ _ _ _ _ _ _ (c - 1) h.shaped.1 (by omega)
          obtain ⟨ho, hfr⟩ := h.put (h.shaped.edit h.sep hed) rfl (within_add_left hed.2)
          refine (erased_restore hfr ho hl hr (by omega) (by omega) rfl fun _ => id).mono fun q hq => ⟨fun _ b hb => ?_, hq⟩
          cases hb
        · rw [if_neg hc, if_neg hc, if_neg hc]
          by_cases hln : l = nil
          · subst hln
            rw [ptr_nil, if_pos rfl, words_nil, join_nil_left]
            refine (erased_discard h hne h.shaped.2.2.2.2.2 (by rw [cells_node, cells_nil]; abel)
              fun hw => hw.2.2).mono fun q hq => ⟨fun _ b hb => ?_, hq⟩
            cases hb
          rw [if_neg (fun h0 => hln (h.shaped.2.2.2.2.1.ptr_eq_zero.mp h0))]
          by_cases hrn : r = nil
          · subst hrn
            rw [ptr_nil, if_pos rfl, words_nil, join_nil_right]
            refine (erased_discard h hne h.shaped.2.2.2.2.1 (by rw [cells_node, cells_nil]; abel)
              fun hw => hw.2.1).mono fun q hq => ⟨fun _ b hb => ?_, hq⟩
            rw [joinKey_nil] at hb
            cases hb
          -- the next word takes the place, and its node is deleted
          rw [if_neg (fun h0 => hrn (h.shaped.2.2.2.2.2.ptr_eq_zero.mp h0))]
          obtain ⟨b, k, hm⟩ := exists_min hrn
          have hwl : words l ≠ nil := by
            intro h0
            cases l with
            | nil => exact hln rfl
            | node d' c' a' l' r' => cases h0
          have hmw : (words r).min? = some (b.word, k) := (min?_map _ _).trans (by rw [hm]; rfl)
          rw [joinKey_some hwl hmw, findMin_spec h.shaped.2.2.2.2.2 hr (by omega) hm, join_some hwl hmw]
          simp only [ok_bind, Option.some.injEq, forall_eq']
          have hwm : words (setMin 1 r) = setMin 1 (words r) := map_setMin _ _ _
          refine heq ▸ erased_heir h hne hl hr hd (by omega) hordr hc hwl hm fun h₁ hitem₁ => ?_
          exact (ih h₁ hitem₁ ((avl_setMin 1 r).mpr hr) (hwm ▸ hordr.setMin 1) (by rw [delta_setMin]; omega)
            (by rw [delta_setMin]; omega)).mono fun _ hq => hq.2
      · have hle : ¬ strcmp w.bytes a.word.bytes < 0 := fun hs => (Word.strcmp_lt.mp hs).not_gt hgt
        rw [if_neg hle, if_pos (Word.strcmp_gt.mpr hgt), if_neg hgt.ne', if_neg hgt.not_gt]
        have hheir : HeirFits s (node d c a.word (words l) (words r)) w = HeirFits s (words r) w := by
          rw [HeirFits, HeirFits, heir, if_neg hgt.ne', if_neg hgt.not_gt]
        rw [hheir]
        have hstuck : ∀ e, Stuck s r w e → Stuck s (node d c a l r) w e := by
          intro e he
          rw [Stuck, words_node, hheir]
          exact he.imp_right fun he => ⟨he.1, fun hw => he.2 hw.2.2⟩
        exact ((ih h.right hitem hr hordr (by omega) (by omega)).weaken hstuck).keep fun hres =>
          erased_right h hl hd (by omega) (erase_avl ((avl_words _).mpr hr)) hres

end Cs238p.Avl
