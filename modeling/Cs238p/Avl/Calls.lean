/-
  Cs238p.Avl.Calls — the calls of the word store.

  `Holding s t`: the store holds the tree `t`, which is balanced and has increasing words.
  One lemma for each call says what it answers and which tree is there afterwards; calls
  that only read find the tree as `CountTree.find` and `CountTree.toList` do. All of them return on
  a recursion depth of `delta t + 2` (`t.delta + 1 < fuel`), or stop for want of room: an
  insertion of a new word, a deletion of a last occurrence.

  `Leaky s t L`: the same, with blocks `L` in use that are not the tree's, and with items
  that may be `NULL`: then a call may also stop there, if its word's search comes by.
-/
import Cs238p.Avl.Delete

namespace Cs238p.Avl

open ByteMemory Scm AvlTree CountTree

/-- The store holds a balanced, ordered tree; its `struct state` is the first block. -/
structure Holding (s : AvlSt) (t : CountTree Loc) : Prop where
  state : s.state = base + 16
  fails : s.fails = []
  owns : Owns s t {stateCell (base + 16)}
  root : (stateAt s.mem (base + 16)).root = ptr t
  avl : t.Avl
  ordered : (words t).Ordered
  whole : Whole t

/-- Blocks `L` were allocated and lost, and items may be `NULL`. -/
structure Leaky (s : AvlSt) (t : CountTree Loc) (L : Multiset Cell) : Prop where
  state : s.state = base + 16
  owns : Owns s t ({stateCell (base + 16)} + L)
  root : (stateAt s.mem (base + 16)).root = ptr t
  avl : t.Avl
  ordered : (words t).Ordered

variable {s s' : AvlSt} {t t' l r : CountTree Loc} {a : Loc} {F L : Multiset Cell} {c : Nat} {d : Int} {w : Word}
  {fuel : Nat}

/-! ## Depth -/

/-- A record with its header for every node. -/
theorem size_le_cells (t : CountTree Loc) : 56 * t.size ≤ ((cells t).map fun e => 16 + e.2).sum := by
  induction t with
  | nil => exact Nat.zero_le _
  | node d c a l r ihl ihr =>
    rw [cells_node]
    simp only [Multiset.map_add, Multiset.sum_add, Multiset.map_singleton, Multiset.sum_singleton, nodeCell, size]
    omega

theorem Owns.size_lt (h : Owns s t F) : t.size < 2 ^ 59 := by
  have h1 := h.holds.sum_le
  have h2 := h.holds.used_lt
  have h3 := size_le_cells t
  rw [Multiset.map_add, Multiset.sum_add] at h1
  omega

/-- No tree that fits is deeper than 118. -/
theorem Owns.delta_le (h : Owns s t F) (ha : t.Avl) : t.delta ≤ 118 := by
  have hsize := h.size_lt
  have hlog : Nat.log 2 (t.size + 1) ≤ 59 :=
    Nat.le_of_lt_succ (Nat.log_lt_of_lt_pow (by omega) (by omega))
  have := depth_le_log ha
  omega

/-! ## Reading -/

/-- Counts are 64-bit words. -/
theorem Shaped.find_lt {m : Mem} (h : Shaped m t) (w : Word) : (words t).find w < 2 ^ 64 := by
  induction t with
  | nil => exact Nat.two_pow_pos 64
  | node d c a l r ihl ihr =>
    obtain ⟨hn, -, -, -, hl, hr⟩ := h
    rw [words_node, find]
    split
    · rw [show c = (nodeAt m a.addr).count by rw [hn]]
      exact Mem.load_lt _ _ 8
    split
    · exact ihl hl
    · exact ihr hr

/-- The loop of `avl_exists`, answering the node at which it stops. -/
def seek (s : AvlSt) (item : List UInt8) : Nat → Nat → Except Stop Nat
  | 0, _ => .error .fuel
  | fuel + 1, p =>
    if p = 0 then pure 0
    else do
      let d := strcmp item (← s.strAt (nodeAt s.mem p).item)
      if d = 0 then return p
      else seek s item fuel (if 0 > d then (nodeAt s.mem p).left else (nodeAt s.mem p).right)

theorem lookup_eq_seek (s : AvlSt) (item : List UInt8) (fuel p : Nat) :
    lookup s item fuel p = (seek s item fuel p).map fun q => if q = 0 then 0 else (nodeAt s.mem q).count := by
  induction fuel generalizing p with
  | zero => rfl
  | succ fuel ih =>
    rw [lookup, seek]
    by_cases h0 : p = 0
    · rw [if_pos h0, if_pos h0]
      rfl
    rw [if_neg h0, if_neg h0]
    cases s.strAt (nodeAt s.mem p).item with
    | error e => rfl
    | ok str =>
      simp only [ok_bind]
      by_cases hd : strcmp item str = 0
      · rw [if_pos hd, if_pos hd]
        exact (congrArg Except.ok (if_neg h0)).symm
      · rw [if_neg hd, if_neg hd, ih]

/-- The search for `w` in `t` ended at the node `p`. -/
structure Sought (s : AvlSt) (t : CountTree Loc) (w : Word) (p : Nat) (d : Int) (c : Nat) (l r : CountTree Loc)
    (F : Multiset Cell) : Prop where
  owns : ∃ str, str ≠ 0 ∧ Owns s (node d c ⟨p, str, w⟩ l r) F
  avl : (node d c ⟨p, 0, w⟩ l r).Avl
  depth : d ≤ t.delta
  present : (words t).present w = true
  find : (words t).find w = c
  heir : (words t).heir w = if 1 < c then none else joinKey (words l) (words r)
  whole : Whole t → Whole r

/-- What `seek` answers. -/
def Seeks (s : AvlSt) (t : CountTree Loc) (w : Word) (p : Nat) : Prop :=
  (p = 0 ∧ (words t).present w = false ∧ (words t).find w = 0) ∨ ∃ d c l r F, Sought s t w p d c l r F

/-- The search in a subtree, for a word that goes there. -/
theorem Seeks.lift {p : Nat} {u : CountTree Loc} (h : Seeks s u w p) (hd : u.delta ≤ t.delta)
    (hpres : (words t).present w = (words u).present w) (hfind : (words t).find w = (words u).find w)
    (hheir : (words t).heir w = (words u).heir w) (hw : Whole t → Whole u) : Seeks s t w p := by
  rcases h with ⟨h0, h1, h2⟩ | ⟨d, c, l, r, F, h⟩
  · exact Or.inl ⟨h0, hpres.trans h1, hfind.trans h2⟩
  · exact Or.inr ⟨d, c, l, r, F, h.owns, h.avl, h.depth.trans hd, hpres.trans h.present, hfind.trans h.find,
      hheir.trans h.heir, fun ht => h.whole (hw ht)⟩

theorem seek_spec (h : Owns s t F) (ha : t.Avl) (hfuel : t.delta + 1 < fuel) :
    Outcome (fun e => e = .null ∧ ¬ Along w t) (seek s w.bytes fuel (ptr t)) fun p => Along w t ∧ Seeks s t w p := by
  induction t generalizing fuel F with
  | nil =>
    obtain ⟨fuel, rfl⟩ : ∃ k, fuel = k + 1 := ⟨fuel - 1, by rw [delta_nil] at hfuel; omega⟩
    rw [seek, ptr_nil, if_pos rfl]
    exact .ok ⟨trivial, Or.inl ⟨rfl, rfl, rfl⟩⟩
  | node d c a l r ihl ihr =>
    obtain ⟨⟨hl1, hl2⟩, hr1, hr2⟩ := sub_bounds ha
    have hge := ha.delta_ge
    rw [delta_node] at hge hfuel
    obtain ⟨fuel, rfl⟩ : ∃ k, fuel = k + 1 := ⟨fuel - 1, by omega⟩
    obtain ⟨hdep, hd, hal, har⟩ := ha
    rw [seek, ptr_node, if_neg h.shaped.2.2.1.1, h.shaped.1]
    by_cases hne : a.str = 0
    · simp only [strAt_null hne, error_bind]
      exact .error ⟨rfl, fun hw => hw.1 hne⟩
    simp only [h.strAt hne, ok_bind]
    rcases lt_trichotomy w a.word with hlt | heq | hgt
    · rw [if_neg (fun hs => hlt.ne (Word.strcmp_eq.mp hs)), if_pos (Word.strcmp_lt.mpr hlt)]
      refine ((ihl h.left hal (show l.delta + 1 < fuel by omega)).weaken fun e he =>
        ⟨he.1, fun hw => he.2 (hw.2.1 hlt)⟩).mono fun p hp => ⟨⟨hne, fun _ => hp.1, fun hgt => absurd hlt hgt.not_gt⟩, ?_⟩
      refine hp.2.lift (by rw [delta_node]; omega) ?_ ?_ ?_ fun ht => ht.2.1
      · rw [words_node, present, if_neg hlt.ne, if_pos hlt]
      · rw [words_node, find, if_neg hlt.ne, if_pos hlt]
      · rw [words_node, heir, if_neg hlt.ne, if_pos hlt]
    · rw [if_pos (Word.strcmp_eq.mpr heq)]
      refine .ok ⟨⟨hne, fun hlt => absurd heq hlt.ne, fun hgt => absurd heq hgt.ne'⟩, Or.inr ⟨d, c, l, r, F, ?_⟩⟩
      refine ⟨⟨a.str, hne, ?_⟩, ⟨hdep, hd, hal, har⟩, le_of_eq (delta_node _ _ _ _ _).symm, ?_, ?_, ?_,
        fun ht => ht.2.2⟩
      · rw [heq]
        exact h
      · rw [words_node, present, if_pos heq]
      · rw [words_node, find, if_pos heq]
      · rw [words_node, heir, if_pos heq]
    · rw [if_neg (fun hs => hgt.ne' (Word.strcmp_eq.mp hs)), if_neg (fun hs => hgt.not_gt (Word.strcmp_lt.mp hs))]
      refine ((ihr h.right har (show r.delta + 1 < fuel by omega)).weaken fun e he =>
        ⟨he.1, fun hw => he.2 (hw.2.2 hgt)⟩).mono fun p hp => ⟨⟨hne, fun hlt => absurd hlt hgt.not_gt, fun _ => hp.1⟩, ?_⟩
      refine hp.2.lift (by rw [delta_node]; omega) ?_ ?_ ?_ fun ht => ht.2.2
      · rw [words_node, present, if_neg hgt.ne', if_neg hgt.not_gt]
      · rw [words_node, find, if_neg hgt.ne', if_neg hgt.not_gt]
      · rw [words_node, heir, if_neg hgt.ne', if_neg hgt.not_gt]

theorem lookup_spec (h : Owns s t F) (ha : t.Avl) (hfuel : t.delta + 1 < fuel) :
    Outcome (fun e => e = .null ∧ ¬ Along w t) (lookup s w.bytes fuel (ptr t)) fun n => Along w t ∧ n =
      (words t).find w := by
  rw [lookup_eq_seek]
  refine (seek_spec h ha hfuel).map fun p hp => ⟨hp.1, ?_⟩
  rcases hp.2 with ⟨h0, -, hfind⟩ | ⟨d, c, l, r, F, hs⟩
  · rw [if_pos h0, hfind]
  · obtain ⟨str, -, ho⟩ := hs.owns
    rw [if_neg ho.shaped.2.2.1.1, ho.shaped.1, hs.find]

/-- A word as the callback of `avl_traverse` gets it. -/
def visit (e : Word × Nat) : List UInt8 × Nat := (e.1.bytes, e.2)

theorem traverse_spec (h : Owns s t F) (ha : t.Avl) (hw : Whole t) (hfuel : t.delta + 1 < fuel) :
    traverse s fuel (ptr t) = .ok ((words t).toList.map visit) := by
  induction t generalizing fuel F with
  | nil =>
    obtain ⟨fuel, rfl⟩ : ∃ k, fuel = k + 1 := ⟨fuel - 1, by rw [delta_nil] at hfuel; omega⟩
    rw [traverse, ptr_nil, if_pos rfl]
    rfl
  | node d c a l r ihl ihr =>
    obtain ⟨⟨hl1, hl2⟩, hr1, hr2⟩ := sub_bounds ha
    have hge := ha.delta_ge
    rw [delta_node] at hge hfuel
    obtain ⟨fuel, rfl⟩ : ∃ k, fuel = k + 1 := ⟨fuel - 1, by omega⟩
    obtain ⟨-, -, hal, har⟩ := ha
    rw [traverse, ptr_node, if_neg h.shaped.2.2.1.1, h.shaped.1]
    rw [@ihl _ fuel h.left hal hw.2.1 (by omega), @ihr _ fuel h.right har hw.2.2 (by omega)]
    simp only [h.strAt hw.1, ok_bind, words_node, toList_node, List.map_append, List.map_cons]
    rfl

theorem Holding.leaky (h : Holding s t) : Leaky s t 0 :=
  ⟨h.state, by rw [add_zero]; exact h.owns, h.root, h.avl, h.ordered⟩

theorem Leaky.holding (h : Leaky s t 0) (hf : s.fails = []) (hw : Whole t) : Holding s t :=
  ⟨h.state, hf, add_zero ({stateCell (base + 16)} : Multiset Cell) ▸ h.owns, h.root, h.avl, h.ordered, hw⟩

namespace Leaky

theorem exists_outcome (h : Leaky s t L) (hfuel : t.delta + 1 < fuel) :
    Outcome (fun e => e = .null ∧ ¬ Along w t) (avlExists fuel s w.bytes) fun n => Along w t ∧ n = (words t).find w := by
  rw [avlExists, if_neg w.nonempty, h.state, h.root]
  exact lookup_spec h.owns h.avl hfuel

theorem exists_spec (h : Leaky s t L) (hal : Along w t) (hfuel : t.delta + 1 < fuel) :
    avlExists fuel s w.bytes = .ok ((words t).find w) := by
  obtain ⟨n, hn, -, rfl⟩ := (h.exists_outcome hfuel).exists_ok fun e _ he => he.2 hal
  exact hn

theorem traverse_spec (h : Leaky s t L) (hw : Whole t) (hfuel : t.delta + 1 < fuel) :
    avlTraverse fuel s = .ok ((words t).toList.map visit) := by
  rw [avlTraverse, h.state, h.root]
  exact Avl.traverse_spec h.owns h.avl hw hfuel

/-! ## Inserting and deleting -/

/-- The counters of the `struct state`. -/
theorem record (h : Leaky s t L) : stateAt s.mem (base + 16) = ⟨avlItems s, avlUnique s, ptr t⟩ := by
  rw [avlItems, avlUnique, h.state, ← h.root]

theorem insert_spec (h : Leaky s t L) (hal : Along w t) (hsup : (words t).present w = false → Supplied s)
    (hfuel : t.delta + 1 < fuel) :
    Outcome (Unanswered s (words t) w) (avlInsert fuel s w.bytes) fun q => q.1 = 0 ∧
      ((words t).present w = false → Answers s w.bytes) ∧ (s.fails = [] → q.2.fails = []) ∧ ∃ t', Leaky q.2 t' L ∧
      Sound w t t' ∧ words t' = (words t).insert next w ∧
      avlItems q.2 = next (avlItems s) ∧ avlUnique q.2 = (avlUnique s + fresh w (words t)) % 2 ^ 64 := by
  have hdelta := h.owns.delta_le h.avl
  have hins := @insert_avl _ _ next w _ ((avl_words _).mpr h.avl)
  rw [avlInsert, if_neg w.nonempty, h.state, h.root]
  refine (update_spec t w h.state h.owns hsup h.record h.avl (by omega) hfuel hal).bind ?_
  intro q hq
  obtain ⟨root, s1⟩ := q
  obtain ⟨hans, t', rfl, hb, hs⟩ := hq
  have hne : ptr t' ≠ 0 := fun h0 => by
    have hw := hb.words
    rw [hb.owns.shaped.ptr_eq_zero.mp h0, words_nil] at hw
    rw [← hw, delta_nil, delta_words] at hins
    cases t with
    | nil => cases hw
    | node d c a l r =>
      have := sub_bounds h.avl
      rw [delta_node] at hins
      omega
  simp only [if_neg hne]
  have hroot := edit_setRoot hb.state hb.owns.shaped.ptr_lt
  have hp1 : s1.state = base + 16 := hb.frame.state.trans h.state
  obtain ⟨ho, -, hst⟩ := put_state hb.owns hroot
  simp only [hp1]
  refine .ok ⟨rfl, hans, hb.frame.fails, t', ⟨hp1, ho, by rw [hst], ?_, ?_⟩, hs, hb.words, ?_, ?_⟩
  · exact (avl_words _).mp (hb.words ▸ hins.1)
  · rw [hb.words]; exact h.ordered.insert next w
  · rw [avlItems, state_put, hp1, hst]
  · rw [avlUnique, state_put, hp1, hst]

/-- `avl_delete` of a word whose multiplicity is 0 as an `int`. -/
theorem delete_absent (h : Leaky s t L) (hal : Along w t) (hfuel : t.delta + 1 < fuel)
    (hc : toInt32 ((words t).find w) = 0) : avlDelete fuel s w.bytes = .error .assert := by
  rw [avlDelete, if_neg w.nonempty, h.exists_spec hal hfuel]
  simp only [ok_bind, if_pos hc]

theorem uncount_spec (h : Leaky s t L) (n : Int) :
    Owns (uncount s n) t ({stateCell (base + 16)} + L) ∧ (uncount s n).state = base + 16 ∧ (uncount s n).fails = s.fails ∧
      stateAt (uncount s n).mem (base + 16) =
        ⟨prev (avlItems s), if n = 1 then prev (avlUnique s) else avlUnique s, ptr t⟩ := by
  obtain ⟨ho1, hf1, hst1⟩ := put_state h.owns (edit_setItems h.record (prev_lt (avlItems s)))
  unfold uncount
  simp only [h.state, h.record]
  by_cases hn : n = 1
  · obtain ⟨ho2, hf2, hst2⟩ := put_state ho1 (edit_setUnique hst1 (prev_lt (avlUnique s)))
    simp only [if_pos hn, state_put, h.state, hst1]
    exact ⟨ho2, trivial, rfl, hst2⟩
  · simp only [if_neg hn]
    exact ⟨ho1, h.state, rfl, hst1⟩

/-- The counters are not the allocator's. -/
theorem uncount_room (s : AvlSt) (n : Int) (str : List UInt8) : HasRoom (uncount s n).scm str ↔ HasRoom s.scm str := by
  unfold uncount
  split <;> exact Iff.rfl

theorem delete_spec (h : Leaky s t L) (hal : Along w t) (hfuel : t.delta + 1 < fuel)
    (hc : toInt32 ((words t).find w) ≠ 0) :
    Outcome (Stuck s t w) (avlDelete fuel s w.bytes) fun q => q.1 = 0 ∧
      (s.fails.headD false = false → HeirFits s (words t) w) ∧ (s.fails = [] → q.2.fails = []) ∧ ∃ t',
      Leaky q.2 t' L ∧ (s.fails = [] → Whole t → Whole t') ∧ words t' = (words t).erase w ∧
      avlItems q.2 = prev (avlItems s) ∧
      avlUnique q.2 = if toInt32 ((words t).find w) = 1 then prev (avlUnique s) else avlUnique s := by
  have hdelta := h.owns.delta_le h.avl
  have hera := @erase_avl _ _ w _ ((avl_words _).mpr h.avl)
  obtain ⟨ho1, hp1, hf1, hst1⟩ := h.uncount_spec (toInt32 ((words t).find w))
  have hroom := uncount_room s (toInt32 ((words t).find w))
  rw [avlDelete, if_neg w.nonempty, h.exists_spec hal hfuel]
  simp only [ok_bind, if_neg hc]
  generalize uncount s (toInt32 ((words t).find w)) = s1 at ho1 hp1 hf1 hst1 hroom ⊢
  have hfits : HeirFits s1 (words t) w = HeirFits s (words t) w := by simp only [HeirFits, hroom]
  have hstuck : ∀ e, Stuck s1 t w e → Stuck s t w e := by
    intro e he
    rwa [Stuck, hfits, hf1] at he
  rw [hp1, hst1]
  refine ((Avl.delete_spec fuel ho1 rfl h.avl h.ordered (by omega) hfuel).weaken hstuck).bind ?_
  intro q hq
  obtain ⟨root, s2⟩ := q
  obtain ⟨hroomy, t', rfl, hw, ho2, hf2, hwhole⟩ := hq
  rw [hfits, hf1] at hroomy
  have hst2 := hf2.stateAt_eq.trans hst1
  have hp2 : s2.state = base + 16 := hf2.state.trans hp1
  obtain ⟨ho3, hf3, hst3⟩ := put_state ho2 (edit_setRoot hst2 ho2.shaped.ptr_lt)
  simp only [hp2]
  refine .ok ⟨rfl, hroomy, fun hf => hf2.fails (hf1.trans hf), t', ⟨hp2, ho3, by rw [hst3], ?_, ?_⟩,
    fun hf => hwhole (hf1.trans hf), hw, ?_, ?_⟩
  · exact (avl_words _).mp (hw ▸ hera.1)
  · rw [hw]; exact h.ordered.erase w
  · rw [avlItems, state_put, hp2, hst3]
  · rw [avlUnique, state_put, hp2, hst3]

end Leaky

/-! ## Without lost blocks -/

namespace Holding

theorem exists_spec (h : Holding s t) (hfuel : t.delta + 1 < fuel) :
    avlExists fuel s w.bytes = .ok ((words t).find w) := h.leaky.exists_spec (h.whole.along w) hfuel

theorem traverse_spec (h : Holding s t) (hfuel : t.delta + 1 < fuel) :
    avlTraverse fuel s = .ok ((words t).toList.map visit) := h.leaky.traverse_spec h.whole hfuel

theorem insert_spec (h : Holding s t) (w : Word) (hfuel : t.delta + 1 < fuel) :
    Outcome (Missing (words t) w) (avlInsert fuel s w.bytes) fun q => q.1 = 0 ∧ ∃ t', Holding q.2 t' ∧ words t' =
      (words t).insert next w ∧
      avlItems q.2 = next (avlItems s) ∧ avlUnique q.2 = (avlUnique s + fresh w (words t)) % 2 ^ 64 := by
  refine ((h.leaky.insert_spec (h.whole.along w) (fun _ => supplied_nil h.fails) hfuel).weaken fun _ he => he.1).mono ?_
  intro q hq
  obtain ⟨hr, -, hf, t', h', hs, hq⟩ := hq
  exact ⟨hr, t', h'.holding (hf h.fails) (hs.2 h.whole), hq⟩

theorem delete_absent (h : Holding s t) (hfuel : t.delta + 1 < fuel) (hc : toInt32 ((words t).find w) = 0) :
    avlDelete fuel s w.bytes = .error .assert := h.leaky.delete_absent (h.whole.along w) hfuel hc

/-- With the exact condition on the room. -/
theorem delete_fits (h : Holding s t) (w : Word) (hfuel : t.delta + 1 < fuel) (hc : toInt32 ((words t).find w) ≠ 0) :
    Outcome (fun e => Spent (words t) w e ∧ ¬ HeirFits s (words t) w) (avlDelete fuel s w.bytes) fun q => q.1 = 0 ∧
      HeirFits s (words t) w ∧ ∃ t', Holding q.2 t' ∧ words t' = (words t).erase w ∧
      avlItems q.2 = prev (avlItems s) ∧
      avlUnique q.2 = if toInt32 ((words t).find w) = 1 then prev (avlUnique s) else avlUnique s := by
  have hstuck : ∀ e, Stuck s t w e → Spent (words t) w e ∧ ¬ HeirFits s (words t) w := by
    intro e he
    refine ⟨he.spent h.whole, ?_⟩
    rcases he with ⟨-, -, hno⟩ | ⟨-, hno⟩
    · exact hno
    · exact absurd h.whole hno
  refine ((h.leaky.delete_spec (h.whole.along w) hfuel hc).weaken hstuck).mono ?_
  intro q hq
  obtain ⟨hr, hroom, hf, t', h', hw, hq⟩ := hq
  exact ⟨hr, hroom (by rw [h.fails]; rfl), t', h'.holding (hf h.fails) (hw h.fails h.whole), hq⟩

theorem delete_spec (h : Holding s t) (w : Word) (hfuel : t.delta + 1 < fuel) (hc : toInt32 ((words t).find w) ≠ 0) :
    Outcome (Spent (words t) w) (avlDelete fuel s w.bytes) fun q => q.1 = 0 ∧ ∃ t', Holding q.2 t' ∧
      words t' = (words t).erase w ∧ avlItems q.2 = prev (avlItems s) ∧
      avlUnique q.2 = if toInt32 ((words t).find w) = 1 then prev (avlUnique s) else avlUnique s :=
  ((h.delete_fits w hfuel hc).weaken fun _ he => he.1).mono fun _ hq => ⟨hq.1, hq.2.2⟩

end Holding

end Cs238p.Avl
