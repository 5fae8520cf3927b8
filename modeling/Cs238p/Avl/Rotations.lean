/-
  Cs238p.Avl.Rotations — the rotations in memory are the rotations of trees, and never read
  a field of `NULL`: each theorem gives the tree that is there afterwards, and says that
  only the tree's own cells changed.
-/
import Cs238p.Avl.Stored
import Mathlib.Tactic.Abel

namespace Cs238p.Avl

open ByteMemory Scm AvlTree CountTree

variable {m m' m'' : Mem} {t l r : CountTree Loc} {a b : Loc} {p q c k : Nat} {d : Int}

/-- Another record stays as it is. -/
theorem Edit.other {v : Node} (h : Edit nodeAt 40 p v m m') (ha : Apart (p, 40) (q, 40)) : nodeAt m' q = nodeAt m q :=
  nodeAt_congr (Sep.agree (sep_add.mpr ⟨sep_singleton, sep_singleton, fun _ he _ hf => by
    rw [Multiset.mem_singleton.mp he, Multiset.mem_singleton.mp hf]; exact ha⟩) h.2)

theorem depthOf_comm (l r : CountTree Loc) : depthOf l r = depthOf r l := by rw [depthOf_eq, depthOf_eq, max_comm]

/-- The cells of a node and its left child, the two records first. -/
theorem cells_left {dl : Int} {cl : Nat} {al : Loc} {ll lr : CountTree Loc} :
    cells (node d c a (node dl cl al ll lr) r) =
    ({nodeCell a} + {nodeCell al}) + (strCells a + (strCells al + (cells ll + (cells lr + cells r)))) := by
  simp only [cells_node]; abel

theorem rotateRight_shaped {dl : Int} {cl : Nat} {al : Loc} {ll lr : CountTree Loc}
    (h : Shaped m (node d c a (node dl cl al ll lr) r)) (hsep : Sep (cells (node d c a (node dl cl al ll lr) r)))
    (h1 : -1 ≤ ll.delta ∧ ll.delta < 2 ^ 30) (h2 : -1 ≤ lr.delta ∧ lr.delta < 2 ^ 30)
      (h3 : -1 ≤ r.delta ∧ r.delta < 2 ^ 30) :
    ∃ m', rotateRight m a.addr = .ok (al.addr, m') ∧ Shaped m' (mk cl al ll (mk c a lr r)) ∧
      Within (cells (node d c a (node dl cl al ll lr) r)) m m' := by
  have hda := h.deref_eq
  obtain ⟨hn, hs, hp, hq, hl, hr⟩ := h
  have hdl := hl.deref_eq
  obtain ⟨hnl, hsl, hpl, hql, hll, hlr⟩ := hl
  rw [cells_left] at hsep ⊢
  have hap : Apart (a.addr, 40) (al.addr, 40) :=
    hsep.left.apart (Multiset.mem_singleton_self (nodeCell a)) (Multiset.mem_singleton_self (nodeCell al))
  have hda' : depthOf lr r < 2 ^ 31 - 1 ∧ -2 ^ 31 ≤ depthOf lr r := by rw [depthOf_eq]; omega
  have hdl' : depthOf ll (mk c a lr r) < 2 ^ 31 ∧ -2 ^ 31 ≤ depthOf ll (mk c a lr r) := by
    rw [depthOf_eq, delta_mk]; omega
  simp only [rotateRight, hda, ok_bind]
  rw [ptr_node, hdl]
  simp only [ok_bind]
  -- four writes, each an edit of one of the two records
  have e1 := edit_setLeft hn hlr.ptr_lt
  have w1 : Within ({nodeCell a} + {nodeCell al}) m (setLeft m a.addr (ptr lr)) := within_add_left e1.2
  generalize setLeft m a.addr (ptr lr) = m1 at e1 w1 ⊢
  have e2 := edit_setRight ((e1.other hap).trans hnl) hp.2
  have w2 : Within ({nodeCell a} + {nodeCell al}) m (setRight m1 al.addr a.addr) := w1.trans (within_add_right e2.2)
  generalize setRight m1 al.addr a.addr = m2 at e2 w2 ⊢
  have hn2 := (e2.other hap.symm).trans e1.1
  have ha2 := hsep.agree w2
  simp only [agree_add] at ha2
  rw [hn2, (hlr.congr ha2.2.2.2.1).depth_eq (hr.congr ha2.2.2.2.2)]
  have e3 := edit_setDepth hn2 hda'.2 (by omega)
  have w3 : Within ({nodeCell a} + {nodeCell al}) m (setDepth m2 a.addr (depthOf lr r)) :=
    w2.trans (within_add_left e3.2)
  generalize setDepth m2 a.addr (depthOf lr r) = m3 at e3 w3 ⊢
  have hn3 := (e3.other hap).trans e2.1
  have ha3 := hsep.agree w3
  simp only [agree_add] at ha3
  have hroot : Shaped m3 (mk c a lr r) :=
    ⟨e3.1, hs.congr ha3.1, hp, hq, hlr.congr ha3.2.2.2.1, hr.congr ha3.2.2.2.2⟩
  have hdep : depth m3 (ptr ll) a.addr = depthOf ll (mk c a lr r) := (hll.congr ha3.2.2.1).depth_eq hroot
  rw [hn3, hdep]
  have e4 := edit_setDepth hn3 hdl'.2 hdl'.1
  have w4 : Within ({nodeCell a} + {nodeCell al}) m (setDepth m3 al.addr (depthOf ll (mk c a lr r))) :=
    w3.trans (within_add_right e4.2)
  generalize setDepth m3 al.addr (depthOf ll (mk c a lr r)) = m4 at e4 w4 ⊢
  have ha4 := hsep.agree w4
  simp only [agree_add] at ha4
  obtain ⟨hsa, hsb, hllw, hlrw, hrw⟩ := ha4
  exact ⟨m4, rfl, ⟨e4.1, hsl.congr hsb, hpl, hql, hll.congr hllw, (e4.other hap.symm).trans e3.1, hs.congr hsa,
    hp, hq, hlr.congr hlrw, hr.congr hrw⟩, within_add_left w4⟩

/-- The cells of a node and its right child, the two records first. -/
theorem cells_right {dr : Int} {cr : Nat} {ar : Loc} {rl rr : CountTree Loc} :
    cells (node d c a l (node dr cr ar rl rr)) =
    ({nodeCell a} + {nodeCell ar}) + (strCells a + (strCells ar + (cells l + (cells rl + cells rr)))) := by
  simp only [cells_node]; abel

theorem rotateLeft_shaped {dr : Int} {cr : Nat} {ar : Loc} {rl rr : CountTree Loc}
    (h : Shaped m (node d c a l (node dr cr ar rl rr))) (hsep : Sep (cells (node d c a l (node dr cr ar rl rr))))
    (h1 : -1 ≤ l.delta ∧ l.delta < 2 ^ 30) (h2 : -1 ≤ rl.delta ∧ rl.delta < 2 ^ 30)
      (h3 : -1 ≤ rr.delta ∧ rr.delta < 2 ^ 30) :
    ∃ m', rotateLeft m a.addr = .ok (ar.addr, m') ∧ Shaped m' (mk cr ar (mk c a l rl) rr) ∧
      Within (cells (node d c a l (node dr cr ar rl rr))) m m' := by
  have hda := h.deref_eq
  obtain ⟨hn, hs, hp, hq, hl, hr⟩ := h
  have hdr := hr.deref_eq
  obtain ⟨hnr, hsr, hpr, hqr, hrl, hrr⟩ := hr
  rw [cells_right] at hsep ⊢
  have hap : Apart (a.addr, 40) (ar.addr, 40) :=
    hsep.left.apart (Multiset.mem_singleton_self (nodeCell a)) (Multiset.mem_singleton_self (nodeCell ar))
  have hda' : depthOf l rl < 2 ^ 31 - 1 ∧ -2 ^ 31 ≤ depthOf l rl := by rw [depthOf_eq]; omega
  have hdr' : depthOf (mk c a l rl) rr < 2 ^ 31 ∧ -2 ^ 31 ≤ depthOf (mk c a l rl) rr := by
    rw [depthOf_eq, delta_mk]; omega
  simp only [rotateLeft, hda, ok_bind]
  rw [ptr_node, hdr]
  simp only [ok_bind]
  have e1 := edit_setRight hn hrl.ptr_lt
  have w1 : Within ({nodeCell a} + {nodeCell ar}) m (setRight m a.addr (ptr rl)) := within_add_left e1.2
  generalize setRight m a.addr (ptr rl) = m1 at e1 w1 ⊢
  have e2 := edit_setLeft ((e1.other hap).trans hnr) hp.2
  have w2 : Within ({nodeCell a} + {nodeCell ar}) m (setLeft m1 ar.addr a.addr) := w1.trans (within_add_right e2.2)
  generalize setLeft m1 ar.addr a.addr = m2 at e2 w2 ⊢
  have hn2 := (e2.other hap.symm).trans e1.1
  have ha2 := hsep.agree w2
  simp only [agree_add] at ha2
  rw [hn2, (hl.congr ha2.2.2.1).depth_eq (hrl.congr ha2.2.2.2.1)]
  have e3 := edit_setDepth hn2 hda'.2 (by omega)
  have w3 : Within ({nodeCell a} + {nodeCell ar}) m (setDepth m2 a.addr (depthOf l rl)) :=
    w2.trans (within_add_left e3.2)
  generalize setDepth m2 a.addr (depthOf l rl) = m3 at e3 w3 ⊢
  have hn3 := (e3.other hap).trans e2.1
  have ha3 := hsep.agree w3
  simp only [agree_add] at ha3
  have hroot : Shaped m3 (mk c a l rl) :=
    ⟨e3.1, hs.congr ha3.1, hp, hq, hl.congr ha3.2.2.1, hrl.congr ha3.2.2.2.1⟩
  -- here the right subtree comes first
  have hdep : depth m3 (ptr rr) a.addr = depthOf (mk c a l rl) rr := by
    rw [← depthOf_comm]; exact (hrr.congr ha3.2.2.2.2).depth_eq hroot
  rw [hn3, hdep]
  have e4 := edit_setDepth hn3 hdr'.2 hdr'.1
  have w4 : Within ({nodeCell a} + {nodeCell ar}) m (setDepth m3 ar.addr (depthOf (mk c a l rl) rr)) :=
    w3.trans (within_add_right e4.2)
  generalize setDepth m3 ar.addr (depthOf (mk c a l rl) rr) = m4 at e4 w4 ⊢
  have ha4 := hsep.agree w4
  simp only [agree_add] at ha4
  obtain ⟨hsa, hsb, hlw, hrlw, hrrw⟩ := ha4
  exact ⟨m4, rfl, ⟨e4.1, hsr.congr hsb, hpr, hqr, ⟨(e4.other hap.symm).trans e3.1, hs.congr hsa,
    hp, hq, hl.congr hlw, hrl.congr hrlw⟩, hrr.congr hrrw⟩, within_add_left w4⟩

/-! ## Another child -/

/-- The left subtree of a node is replaced: `m1` has the new one and kept the rest. -/
theorem Shaped.setLeft {m1 : Mem} {l' : CountTree Loc} (h : Shaped m (node d c a l r))
    (ha : Agree ({nodeCell a} + (strCells a + cells r)) m m1) (hl : Shaped m1 l')
      (hsep : Sep (cells (node d c a l' r))) :
    Shaped (setLeft m1 a.addr (ptr l')) (node d c a l' r) ∧ Within {nodeCell a} m1 (setLeft m1 a.addr (ptr l')) := by
  obtain ⟨hn, hs, hp, hq, -, hr⟩ := h
  simp only [agree_add] at ha
  have he := edit_setLeft ((nodeAt_congr ha.1).trans hn) hl.ptr_lt
  have hag := hsep.agree he.2
  simp only [agree_add] at hag
  exact ⟨⟨he.1, (hs.congr ha.2.1).congr hag.1, hp, hq, hl.congr hag.2.1, (hr.congr ha.2.2).congr hag.2.2⟩, he.2⟩

theorem Shaped.setRight {m1 : Mem} {r' : CountTree Loc} (h : Shaped m (node d c a l r))
    (ha : Agree ({nodeCell a} + (strCells a + cells l)) m m1) (hr : Shaped m1 r')
      (hsep : Sep (cells (node d c a l r'))) :
    Shaped (setRight m1 a.addr (ptr r')) (node d c a l r') ∧ Within {nodeCell a} m1 (setRight m1 a.addr (ptr r')) := by
  obtain ⟨hn, hs, hp, hq, hl, -⟩ := h
  simp only [agree_add] at ha
  have he := edit_setRight ((nodeAt_congr ha.1).trans hn) hr.ptr_lt
  have hag := hsep.agree he.2
  simp only [agree_add] at hag
  exact ⟨⟨he.1, (hs.congr ha.2.1).congr hag.1, hp, hq, (hl.congr ha.2.2).congr hag.2.1, hr.congr hag.2.2⟩, he.2⟩

/-! ## Double rotations -/

theorem rotateLeftRight_shaped {dl dm : Int} {cl cm : Nat} {al am : Loc} {ll ml mr : CountTree Loc}
    (h : Shaped m (node d c a (node dl cl al ll (node dm cm am ml mr)) r))
    (hsep : Sep (cells (node d c a (node dl cl al ll (node dm cm am ml mr)) r)))
    (h1 : -1 ≤ ll.delta ∧ ll.delta < 2 ^ 29) (h2 : -1 ≤ ml.delta ∧ ml.delta < 2 ^ 29)
    (h3 : -1 ≤ mr.delta ∧ mr.delta < 2 ^ 29) (h4 : -1 ≤ r.delta ∧ r.delta < 2 ^ 29) :
    ∃ m', rotateLeftRight m a.addr = .ok (am.addr, m') ∧ Shaped m' (mk cm am (mk cl al ll ml) (mk c a mr r)) ∧
      Within (cells (node d c a (node dl cl al ll (node dm cm am ml mr)) r)) m m' := by
  have hcells : cells (node d c a (mk cm am (mk cl al ll ml) mr) r) =
      cells (node d c a (node dl cl al ll (node dm cm am ml mr)) r) := by
    simp only [cells_node, cells_mk]; abel
  have hin : cells (node d c a (node dl cl al ll (node dm cm am ml mr)) r) =
      cells (node dl cl al ll (node dm cm am ml mr)) + ({nodeCell a} + (strCells a + cells r)) := by
    rw [cells_node]; abel
  have hsep' := hin ▸ hsep
  obtain ⟨m1, hrot, hst, hw⟩ := rotateLeft_shaped h.2.2.2.2.1 hsep'.left ⟨by omega, by omega⟩ ⟨by omega, by omega⟩
    ⟨by omega, by omega⟩
  obtain ⟨hst2, hw2⟩ := h.setLeft (hsep'.agree hw) hst (hcells ▸ hsep)
  obtain ⟨m3, hrot3, hst3, hw3⟩ := rotateRight_shaped hst2 (hcells ▸ hsep) (by rw [delta_mk]; omega)
    ⟨by omega, by omega⟩ ⟨by omega, by omega⟩
  refine ⟨m3, ?_, hst3, ?_⟩
  · simp only [rotateLeftRight, h.deref_eq, ok_bind, ptr_node, hrot]
    exact hrot3
  · replace hw3 : Within (cells (node d c a (mk cm am (mk cl al ll ml) mr) r)) _ m3 := hw3
    rw [hcells] at hw3
    refine Within.trans ?_ hw3
    rw [hin]
    exact (within_add_left hw).trans (within_add_right (within_add_left hw2))

theorem rotateRightLeft_shaped {dr dm : Int} {cr cm : Nat} {ar am : Loc} {ml mr rr : CountTree Loc}
    (h : Shaped m (node d c a l (node dr cr ar (node dm cm am ml mr) rr)))
    (hsep : Sep (cells (node d c a l (node dr cr ar (node dm cm am ml mr) rr))))
    (h1 : -1 ≤ l.delta ∧ l.delta < 2 ^ 29) (h2 : -1 ≤ ml.delta ∧ ml.delta < 2 ^ 29)
    (h3 : -1 ≤ mr.delta ∧ mr.delta < 2 ^ 29) (h4 : -1 ≤ rr.delta ∧ rr.delta < 2 ^ 29) :
    ∃ m', rotateRightLeft m a.addr = .ok (am.addr, m') ∧ Shaped m' (mk cm am (mk c a l ml) (mk cr ar mr rr)) ∧
      Within (cells (node d c a l (node dr cr ar (node dm cm am ml mr) rr))) m m' := by
  have hcells : cells (node d c a l (mk cm am ml (mk cr ar mr rr))) =
      cells (node d c a l (node dr cr ar (node dm cm am ml mr) rr)) := by
    simp only [cells_node, cells_mk]; abel
  have hin : cells (node d c a l (node dr cr ar (node dm cm am ml mr) rr)) =
      cells (node dr cr ar (node dm cm am ml mr) rr) + ({nodeCell a} + (strCells a + cells l)) := by
    rw [cells_node]; abel
  have hsep' := hin ▸ hsep
  obtain ⟨m1, hrot, hst, hw⟩ := rotateRight_shaped h.2.2.2.2.2 hsep'.left ⟨by omega, by omega⟩ ⟨by omega, by omega⟩
    ⟨by omega, by omega⟩
  obtain ⟨hst2, hw2⟩ := h.setRight (hsep'.agree hw) hst (hcells ▸ hsep)
  obtain ⟨m3, hrot3, hst3, hw3⟩ := rotateLeft_shaped hst2 (hcells ▸ hsep) ⟨by omega, by omega⟩ ⟨by omega, by omega⟩
    (by rw [delta_mk]; omega)
  refine ⟨m3, ?_, hst3, ?_⟩
  · simp only [rotateRightLeft, h.deref_eq, ok_bind, ptr_node, hrot]
    exact hrot3
  · replace hw3 : Within (cells (node d c a l (mk cm am ml (mk cr ar mr rr)))) _ m3 := hw3
    rw [hcells] at hw3
    refine Within.trans ?_ hw3
    rw [hin]
    exact (within_add_left hw).trans (within_add_right (within_add_left hw2))

/-! ## Restoring the balance after a deletion -/

/-- The cells go by the keys, not by the shape. -/
def cellsOf : List (Loc × Nat) → Multiset Cell
  | [] => 0
  | (a, _) :: L => {nodeCell a} + (strCells a + cellsOf L)

theorem cellsOf_append (L L' : List (Loc × Nat)) : cellsOf (L ++ L') = cellsOf L + cellsOf L' := by
  induction L with
  | nil => simp [cellsOf]
  | cons e L ih => obtain ⟨a, c⟩ := e; simp only [List.cons_append, cellsOf, ih]; abel

theorem cells_eq (t : CountTree Loc) : cells t = cellsOf t.toList := by
  induction t with
  | nil => rfl
  | node d c a l r ihl ihr => rw [cells_node, toList_node, cellsOf_append, cellsOf, ihl, ihr]; abel

theorem cells_rebalance (c : Nat) (a : Loc) (l r : CountTree Loc) :
    cells (CountTree.rebalance c a l r) = cells (mk c a l r) := by
  rw [cells_eq, cells_eq, toList_rebalance, toList_mk]

/-- The subtrees may differ by 2; then the rotation that is chosen finds its children. -/
theorem rebalance_shaped (h : Shaped m (node d c a l r)) (hsep : Sep (cells (node d c a l r))) (hl : l.Avl) (hr : r.Avl)
    (hd : (l.delta - r.delta).natAbs ≤ 2) (hbl : l.delta < 2 ^ 28) :
    ∃ m', rebalance m a.addr = .ok (ptr (CountTree.rebalance c a l r), m') ∧ Shaped m' (CountTree.rebalance c a l r) ∧
      Within (cells (node d c a l r)) m m' := by
  have hgl := hl.delta_ge
  have hgr := hr.delta_ge
  have hdep : depthOf l r < 2 ^ 31 ∧ -2 ^ 31 ≤ depthOf l r := by rw [depthOf_eq]; omega
  have he := edit_setDepth h.1 hdep.2 hdep.1
  have hmk : Shaped (setDepth m a.addr (depthOf l r)) (mk c a l r) := h.edit hsep he
  have hw : Within (cells (node d c a l r)) m (setDepth m a.addr (depthOf l r)) := within_add_left he.2
  unfold rebalance
  rw [h.deref_eq]
  simp only [ok_bind, h.2.2.2.2.1.depth_eq h.2.2.2.2.2]
  generalize setDepth m a.addr (depthOf l r) = m1 at hmk hw ⊢
  rw [Shaped.balance_eq hmk]
  unfold CountTree.rebalance
  simp only [ok_bind, gt_iff_lt]
  by_cases h1 : 1 < l.delta - r.delta
  · rw [if_pos h1, if_pos h1]
    obtain ⟨cl, al, ll, lr, rfl, hbl', hll, hlr⟩ := hl.exists_node (by omega)
    rw [delta_mk] at hd h1 hbl
    have := hll.delta_ge
    have := hlr.delta_ge
    rw [ptr_mk, Shaped.balance_eq hmk.2.2.2.2.1]
    simp only [ok_bind]
    by_cases hb : 0 ≤ ll.delta - lr.delta
    · rw [if_pos hb, if_pos (show 0 ≤ (mk cl al ll lr).balance from hb)]
      obtain ⟨m', hrot, hst, hw'⟩ := rotateRight_shaped hmk hsep ⟨by omega, by omega⟩ ⟨by omega, by omega⟩
        ⟨by omega, by omega⟩
      exact ⟨m', hrot, hst, hw.trans hw'⟩
    · rw [if_neg hb, if_neg (show ¬ 0 ≤ (mk cl al ll lr).balance from hb)]
      obtain ⟨cm, am, ml, mr, rfl, hbm, hml, hmr⟩ := hlr.exists_node (by omega)
      rw [delta_mk] at *
      have := hml.delta_ge
      have := hmr.delta_ge
      obtain ⟨m', hrot, hst, hw'⟩ := rotateLeftRight_shaped hmk hsep ⟨by omega, by omega⟩ ⟨by omega, by omega⟩
        ⟨by omega, by omega⟩ ⟨by omega, by omega⟩
      exact ⟨m', hrot, hst, hw.trans hw'⟩
  · rw [if_neg h1, if_neg h1]
    by_cases h2 : l.delta - r.delta < -1
    · rw [if_pos h2, if_pos h2]
      obtain ⟨cr, ar, rl, rr, rfl, hbr', hrl, hrr⟩ := hr.exists_node (by omega)
      rw [delta_mk] at hd h2
      have := hrl.delta_ge
      have := hrr.delta_ge
      rw [ptr_mk, Shaped.balance_eq hmk.2.2.2.2.2]
      simp only [ok_bind]
      by_cases hb : rl.delta - rr.delta ≤ 0
      · rw [if_pos hb, if_pos (show (mk cr ar rl rr).balance ≤ 0 from hb)]
        obtain ⟨m', hrot, hst, hw'⟩ := rotateLeft_shaped hmk hsep ⟨by omega, by omega⟩ ⟨by omega, by omega⟩
          ⟨by omega, by omega⟩
        exact ⟨m', hrot, hst, hw.trans hw'⟩
      · rw [if_neg hb, if_neg (show ¬ (mk cr ar rl rr).balance ≤ 0 from hb)]
        obtain ⟨cm, am, ml, mr, rfl, hbm, hml, hmr⟩ := hrl.exists_node (by omega)
        rw [delta_mk] at *
        have := hml.delta_ge
        have := hmr.delta_ge
        obtain ⟨m', hrot, hst, hw'⟩ := rotateRightLeft_shaped hmk hsep ⟨by omega, by omega⟩ ⟨by omega, by omega⟩
          ⟨by omega, by omega⟩ ⟨by omega, by omega⟩
        exact ⟨m', hrot, hst, hw.trans hw'⟩
    · rw [if_neg h2, if_neg h2]
      exact ⟨m1, rfl, hmk, hw⟩

end Cs238p.Avl
