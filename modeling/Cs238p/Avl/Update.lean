/-
  Cs238p.Avl.Update — `update` inserts.

  `Owns s t F`: the tree `t` is in memory, and the blocks in use are its cells and `F`.
  `Frame s s' F`: a call left the cells `F` alone. `update_spec`: where every block fits the
  region, `update` turns a balanced tree into one whose words are those of `CountTree.insert`,
  counts in the `struct state`, and leaves every cell that is not the tree's alone.
-/
import Cs238p.Avl.Rotations

namespace Cs238p.Avl

open ByteMemory Scm AvlTree CountTree

/-- The ways in which a run ends for want of room. -/
def Full (e : Stop) : Prop := e = .exit ∨ e = .fault

structure Owns (s : AvlSt) (t : CountTree Loc) (F : Multiset Cell) : Prop where
  holds : Holds s.scm (cells t + F)
  shaped : Shaped s.mem t

structure Frame (s s' : AvlSt) (F : Multiset Cell) : Prop where
  agree : Agree F s.mem s'.mem
  state : s'.state = s.state
  fails : s.fails = [] → s'.fails = []

variable {s s' s'' : AvlSt} {m' : Mem} {t t' l r : CountTree Loc} {a : Loc} {F G : Multiset Cell} {p c n : Nat}
  {d : Int}

@[simp] theorem mem_put (s : AvlSt) (m : Mem) : (s.put m).mem = m := rfl

@[simp] theorem state_put (s : AvlSt) (m : Mem) : (s.put m).state = s.state := rfl

@[simp] theorem fails_put (s : AvlSt) (m : Mem) : (s.put m).fails = s.fails := rfl

theorem Frame.refl (s : AvlSt) (F : Multiset Cell) : Frame s s F := ⟨agree_refl _ _, rfl, id⟩

theorem Frame.trans (h : Frame s s' F) (h' : Frame s' s'' F) : Frame s s'' F :=
  ⟨h.agree.trans h'.agree, h'.state.trans h.state, fun hf => h'.fails (h.fails hf)⟩

theorem frame_add : Frame s s' (F + G) ↔ Frame s s' F ∧ Frame s s' G :=
  ⟨fun h => ⟨⟨(agree_add.mp h.agree).1, h.state, h.fails⟩, ⟨(agree_add.mp h.agree).2, h.state, h.fails⟩⟩,
    fun h => ⟨agree_add.mpr ⟨h.1.agree, h.2.agree⟩, h.1.state, h.1.fails⟩⟩

/-- A write inside cells that are held. -/
theorem holds_put (h : Holds s.scm (F + G)) (hw : Within F s.mem m') :
    Holds (s.put m').scm (F + G) ∧ Frame s (s.put m') G :=
  ⟨h.within (within_add_left hw), h.sep.agree hw, rfl, id⟩

/-- A change inside the tree. -/
theorem Owns.put (h : Owns s t F) (hst : Shaped m' t') (hc : cells t' = cells t) (hw : Within (cells t) s.mem m') :
    Owns (s.put m') t' F ∧ Frame s (s.put m') F := by
  obtain ⟨hh, hf⟩ := holds_put h.holds hw
  exact ⟨⟨by rw [hc]; exact hh, hst⟩, hf⟩

theorem Owns.sep (h : Owns s t F) : Sep (cells t) := h.holds.sep.left

theorem Owns.left (h : Owns s (node d c a l r) F) : Owns s l ({nodeCell a} + (strCells a + (cells r + F))) := by
  have hsum : cells (node d c a l r) + F = cells l + ({nodeCell a} + (strCells a + (cells r + F))) := by
    rw [cells_node]; abel
  exact ⟨hsum ▸ h.holds, h.shaped.2.2.2.2.1⟩

theorem Owns.right (h : Owns s (node d c a l r) F) : Owns s r ({nodeCell a} + (strCells a + (cells l + F))) := by
  have hsum : cells (node d c a l r) + F = cells r + ({nodeCell a} + (strCells a + (cells l + F))) := by
    rw [cells_node]; abel
  exact ⟨hsum ▸ h.holds, h.shaped.2.2.2.2.2⟩

/-- A word of the tree is read back. -/
theorem Owns.strAt (h : Owns s (node d c a l r) F) (ha : a.str ≠ 0) : s.strAt a.str = .ok a.word.bytes := by
  have hs := h.shaped.2.1 ha
  have hmem : strCell a ∈ cells (node d c a l r) + F := by simp [strCells_of_ne ha]
  have hb := h.holds.bounds hmem
  have hfit : base + s.scm.usedBytes ≤ vmStart + s.scm.size := by
    obtain ⟨bs, hr, -⟩ := h.holds
    have := hr.fits
    simp only [base]; omega
  simp only [strCell] at hb
  rw [AvlSt.strAt, if_neg ha]
  exact congrArg _ (cstrN_of_read a.word.isStr hs (by omega))

/-! ## Allocation -/

/-- The string of a `scm_strdup` ends inside the mapping. -/
def HasRoom (scm : ScmSt) (str : List UInt8) : Prop := base + scm.usedBytes + 16 + (str.length + 1) ≤ vmStart + scm.size

instance (scm : ScmSt) (str : List UInt8) : Decidable (HasRoom scm str) := inferInstanceAs (Decidable (_ ≤ _))

theorem allocate_ok (hf : s.fails.headD false = false) {p : Nat} {scm : ScmSt} :
    allocate s n (.ok (p, scm)) =
      if vmStart + scm.size < p + n then .error .fault else .ok (p, { s with scm := scm, fails := s.fails.tail }) := by
  unfold allocate
  rw [hf, if_neg Bool.false_ne_true]
  rfl

theorem allocate_failed (hf : s.fails.headD false = true) (res : Except Stop (Nat × ScmSt)) :
    allocate s n res = .ok (0, { s with fails := s.fails.tail }) := by
  rw [allocate, if_pos hf]

theorem tail_nil (hf : s.fails = []) : s.fails.tail = [] := by rw [hf]; rfl

/-- `scm_malloc` answers a block inside the mapping. -/
def Malloced (s : AvlSt) (n : Nat) (r : Nat × AvlSt) : Prop :=
  ∃ scm, scmMalloc s.scm n = .ok (r.1, scm) ∧ r.1 + n ≤ vmStart + scm.size ∧
    r.2 = { s with scm := scm, fails := s.fails.tail }

/-- Neither allocation of a new node ends the process. -/
def Answers (s : AvlSt) (item : List UInt8) : Prop :=
  s.fails.headD false = true ∨ ∃ r, Malloced s 40 r ∧ (r.2.fails.headD false = true ∨ HasRoom r.2.scm item)

/-- The next two allocations do not fail. -/
def Supplied (s : AvlSt) : Prop := s.fails.headD false = false ∧ s.fails.tail.headD false = false

instance (s : AvlSt) : Decidable (Supplied s) := inferInstanceAs (Decidable (_ ∧ _))

theorem supplied_nil (hf : s.fails = []) : Supplied s := by rw [Supplied, hf]; exact ⟨rfl, rfl⟩

theorem malloc_spec (h : Holds s.scm F) (hf : s.fails.headD false = false) (n : Nat) :
    Outcome (fun e => Full e ∧ ¬ ∃ r, Malloced s n r) (malloc s n) fun r => Malloced s n r ∧
      Holds r.2.scm ({(r.1, n)} + F) ∧ Frame s r.2 F := by
  unfold malloc
  rcases h.malloc n with he | ⟨p, s', he, hsize, hp⟩
  · rw [he, allocate, hf]
    refine .error ⟨Or.inl rfl, ?_⟩
    intro hr
    obtain ⟨r, scm, hm, -⟩ := hr
    rw [he] at hm
    cases hm
  · rw [he, allocate_ok hf]
    by_cases hroom : vmStart + s'.size < p + n
    · rw [if_pos hroom]
      refine .error ⟨Or.inr rfl, ?_⟩
      intro hr
      obtain ⟨r, scm, hm, hle, -⟩ := hr
      rw [he, Except.ok.injEq, Prod.mk.injEq] at hm
      rw [← hm.1, ← hm.2] at hle
      omega
    · rw [if_neg hroom]
      obtain ⟨hh, hag⟩ := hp.resolve_left (by rwa [← hsize])
      exact .ok ⟨⟨s', he, by omega, rfl⟩, by rw [Multiset.singleton_add]; exact hh, hag, rfl, tail_nil⟩

theorem strdup_spec (h : Holds s.scm F) (hf : s.fails.headD false = false) (str : List UInt8) :
    Outcome (fun e => Full e ∧ ¬ HasRoom s.scm str) (strdup s str) fun r => HasRoom s.scm str ∧
      Holds r.2.scm ({(r.1, str.length + 1)} + F) ∧ Frame s r.2 F ∧ r.2.mem.read r.1 (str.length + 1) = str ++ [0] := by
  unfold strdup
  have hsize : (scmStrdup s.scm str).2.size = s.scm.size := rfl
  have haddr : (scmStrdup s.scm str).1 = base + s.scm.usedBytes + 16 := rfl
  rw [show scmStrdup s.scm str = ((scmStrdup s.scm str).1, (scmStrdup s.scm str).2) from rfl, allocate_ok hf, hsize,
    haddr]
  by_cases hroom : HasRoom s.scm str
  · rw [if_neg (by unfold HasRoom at hroom; omega)]
    have hfit : Fits s.scm (str.length + 1) := by simp only [Fits, HasRoom, base] at hroom ⊢; omega
    obtain ⟨p, s', he, -, hh, hag, hread⟩ := h.strdup str hfit
    rw [← haddr, he]
    exact .ok ⟨hroom, by rw [Multiset.singleton_add]; exact hh, ⟨hag, rfl, tail_nil⟩, hread⟩
  · rw [if_pos (by unfold HasRoom at hroom; omega)]
    exact .error ⟨Or.inr rfl, hroom⟩

theorem free_spec (h : Holds s.scm ({(p, n)} + F)) : ∃ s', free s p = .ok s' ∧ Holds s'.scm F ∧ Frame s s' F := by
  rw [Multiset.singleton_add] at h
  obtain ⟨scm, he, -, hh, hag⟩ := h.free
  exact ⟨{ s with scm := scm }, by rw [free, he]; rfl, hh, hag, rfl, id⟩

/-- A cell that is held has an address. -/
theorem holds_addr (h : Holds s.scm ({(p, n)} + F)) : p ≠ 0 ∧ p < 2 ^ 64 := by
  have hb := h.bounds (show (p, n) ∈ {(p, n)} + F by simp)
  have hlt := h.used_lt
  simp only [base] at hb hlt
  omega

/-! ## A new node -/

variable {i u x : Nat} {w : Word} {fuel : Nat}

/-- The cell of the `struct state`. -/
def stateCell (p : Nat) : Cell := (p, 24)

theorem nodeAt_zeros (m : Mem) (p : Nat) : nodeAt (m.write p (List.replicate 40 0)) p = ⟨0, 0, 0, 0, 0⟩ := by
  simp (disch := omega) only [nodeAt, Mem.load_zeros]
  rfl

theorem within_zeros (m : Mem) (p k : Nat) : Within {(p, k)} m (m.write p (List.replicate k 0)) :=
  within_write (Nat.le_refl _) (by simp)

/-- A field of the `struct state` is written. -/
theorem put_state {v : State} (h : Owns s t ({stateCell p} + F)) (he : Edit stateAt 24 p v s.mem m') :
    Owns (s.put m') t ({stateCell p} + F) ∧ Frame s (s.put m') F ∧ stateAt (s.put m').mem p = v := by
  have hsum : cells t + ({stateCell p} + F) = {stateCell p} + (cells t + F) := by abel
  obtain ⟨hh, hf⟩ := holds_put (hsum ▸ h.holds) he.2
  have hf' := frame_add.mp hf
  exact ⟨⟨by rw [hsum]; exact hh, h.shaped.congr hf'.1.agree⟩, hf'.2, he.1⟩

/-- The record of the `struct state` in a frame. -/
theorem Frame.stateAt_eq (h : Frame s s' ({stateCell p} + F)) : stateAt s'.mem p = stateAt s.mem p :=
  stateAt_congr (agree_add.mp h.agree).1

theorem next_lt (n : Nat) : next n < 2 ^ 64 := Nat.mod_lt _ (by decide)

theorem prev_lt (n : Nat) : prev n < 2 ^ 64 := Nat.mod_lt _ (by decide)

theorem bump_spec (hp : s.state = p) (h : Owns s (node d c a l r) ({stateCell p} + F))
    (hst : stateAt s.mem p = ⟨i, u, x⟩) :
    Owns (bump s a.addr) (node d (next c) a l r) ({stateCell p} + F) ∧ Frame s (bump s a.addr) F ∧
      stateAt (bump s a.addr).mem p = ⟨next i, u, x⟩ := by
  have he := edit_setCount h.shaped.1 (next_lt c)
  obtain ⟨h1, hf1⟩ := h.put (h.shaped.edit h.sep he) rfl (within_add_left he.2)
  have hst1 := (hf1.stateAt_eq).trans hst
  obtain ⟨h2, hf2, hst2⟩ := put_state h1 (edit_setItems hst1 (next_lt i))
  have hbump : bump s a.addr = (s.put (setCount s.mem a.addr (next c))).put
      (setItems (s.put (setCount s.mem a.addr (next c))).mem p (next i)) := by
    unfold bump
    simp only [h.shaped.1, state_put, hp, hst1]
  rw [hbump]
  exact ⟨h2, (frame_add.mp hf1).2.trans hf2, hst2⟩

theorem malloced_unique {r r' : Nat × AvlSt} (h : Malloced s n r) (h' : Malloced s n r') : r = r' := by
  obtain ⟨scm, hm, -, hr⟩ := h
  obtain ⟨scm', hm', -, hr'⟩ := h'
  rw [hm, Except.ok.injEq, Prod.mk.injEq] at hm'
  rw [← hm'.2] at hr'
  exact Prod.ext hm'.1 (hr.trans hr'.symm)

theorem newNode_spec (hp : s.state = p) (h : Holds s.scm ({stateCell p} + F)) (hf : Supplied s)
    (hst : stateAt s.mem p = ⟨i, u, x⟩) (w : Word) :
    Outcome (fun e => Full e ∧ ¬ Answers s w.bytes) (newNode s w.bytes) fun q => Answers s w.bytes ∧ ∃ a : Loc,
      q.1 = a.addr ∧ a.str ≠ 0 ∧ a.word = w ∧ Owns q.2 (node 0 1 a nil nil) ({stateCell p} + F) ∧ Frame s q.2 F ∧
      stateAt q.2.mem p = ⟨next i, next u, x⟩ := by
  unfold newNode
  have hno : ∀ hw : s.fails.headD false = true, False := fun hw => by
    rw [hf.1] at hw
    cases hw
  refine ((malloc_spec h hf.1 40).weaken fun e he =>
    ⟨he.1, fun ha => he.2 ((ha.resolve_left hno).imp fun _ hr => hr.1)⟩).bind ?_
  intro q hq
  obtain ⟨root, s1⟩ := q
  obtain ⟨hm1, hh1, hf1⟩ := hq
  have hfails : s1.fails = s.fails.tail := by
    obtain ⟨scm, -, -, hs1⟩ := hm1
    simp only at hs1
    rw [hs1]
  obtain ⟨hr0, hr1⟩ := holds_addr hh1
  simp only [if_neg hr0]
  obtain ⟨hh2, hf2⟩ := holds_put hh1 (within_zeros s1.mem root 40)
  have hfr2 := hf1.trans hf2
  have hroom : HasRoom s1.scm w.bytes ↔ Answers s w.bytes := by
    constructor
    · exact fun hroom => Or.inr ⟨_, hm1, Or.inr hroom⟩
    · intro ha
      obtain ⟨r, hr, ha⟩ := ha.resolve_left hno
      rw [malloced_unique hr hm1] at ha
      refine ha.resolve_left fun hw => ?_
      simp only [hfails, hf.2] at hw
      cases hw
  refine ((strdup_spec hh2 (by rw [fails_put, hfails]; exact hf.2) w.bytes).weaken fun e he =>
    ⟨he.1, fun ha => he.2 (hroom.mpr ha)⟩).bind ?_
  intro q hq
  obtain ⟨str, s3⟩ := q
  obtain ⟨ha, hh3, hf3, hread⟩ := hq
  obtain ⟨hs0, hs1⟩ := holds_addr hh3
  simp only [if_neg hs0]
  obtain ⟨hf3r, hf3⟩ := frame_add.mp hf3
  have he := edit_setItem ((nodeAt_congr hf3r.agree).trans (nodeAt_zeros s1.mem root)) hs1
  have hsum : ({(str, w.bytes.length + 1)} : Multiset Cell) + ({(root, 40)} + ({stateCell p} + F)) =
      {(root, 40)} + ({(str, w.bytes.length + 1)} + ({stateCell p} + F)) := by abel
  obtain ⟨hh4, hf4⟩ := holds_put (hsum ▸ hh3) he.2
  obtain ⟨hf4s, hf4⟩ := frame_add.mp hf4
  have hfr4 := (hfr2.trans hf3).trans hf4
  let a : Loc := ⟨root, str, w⟩
  have howns : Owns (s3.put (setItem s3.mem root str)) (node 0 0 a nil nil) ({stateCell p} + F) := by
    refine ⟨?_, he.1, ?_, ⟨hr0, hr1⟩, hs1, trivial, trivial⟩
    · have hc : cells (node 0 0 a nil nil) + ({stateCell p} + F) =
          {(root, 40)} + ({(str, w.bytes.length + 1)} + ({stateCell p} + F)) := by
        rw [cells_node, strCells_of_ne hs0]
        simp only [cells_nil, nodeCell, strCell, a]; abel
      rw [hc]; exact hh4
    · exact fun _ => (hf4s.agree.read (Multiset.mem_singleton_self _) (Nat.le_refl _) (Nat.le_refl _)).trans hread
  have hp4 := hfr4.state.trans hp
  obtain ⟨h5, hf5, hst5⟩ := bump_spec hp4 howns (hfr4.stateAt_eq.trans hst)
  have hp5 := hf5.state.trans hp4
  obtain ⟨h6, hf6, hst6⟩ := put_state h5 (edit_setUnique hst5 (next_lt u))
  refine .ok ⟨hroom.mp ha, a, rfl, hs0, rfl, ?_⟩
  simp only [a] at h6 hf6 hst6 hst5 hp5
  simp only [hp5, hst5]
  exact ⟨h6, ((frame_add.mp hfr4).2.trans hf5).trans hf6, hst6⟩

/-! ## After the recursive call -/

@[simp] theorem words_nil : words nil = nil := rfl

@[simp] theorem words_node (d : Int) (c : Nat) (a : Loc) (l r : CountTree Loc) :
    words (node d c a l r) = node d c a.word (words l) (words r) := rfl

@[simp] theorem words_mk (c : Nat) (a : Loc) (l r : CountTree Loc) :
    words (mk c a l r) = mk c a.word (words l) (words r) :=
  map_mk _ _ _ _ _

@[simp] theorem delta_words (t : CountTree Loc) : (words t).delta = t.delta := delta_map _ _

@[simp] theorem avl_words (t : CountTree Loc) : (words t).Avl ↔ t.Avl := avl_map _ _

@[simp] theorem along_node (w : Word) (d : Int) (c : Nat) (a : Loc) (l r : CountTree Loc) :
    Along w (node d c a l r) ↔ a.str ≠ 0 ∧ (w < a.word → Along w l) ∧ (a.word < w → Along w r) := Iff.rfl

@[simp] theorem along_mk (w : Word) (c : Nat) (a : Loc) (l r : CountTree Loc) :
    Along w (mk c a l r) ↔ a.str ≠ 0 ∧ (w < a.word → Along w l) ∧ (a.word < w → Along w r) := Iff.rfl

@[simp] theorem whole_node (d : Int) (c : Nat) (a : Loc) (l r : CountTree Loc) :
    Whole (node d c a l r) ↔ a.str ≠ 0 ∧ Whole l ∧ Whole r := Iff.rfl

@[simp] theorem whole_mk (c : Nat) (a : Loc) (l r : CountTree Loc) :
    Whole (mk c a l r) ↔ a.str ≠ 0 ∧ Whole l ∧ Whole r := Iff.rfl

/-- The way to `w` in `t'` meets no `NULL` item, and neither does any in it if none did in `t`. -/
def Sound (w : Word) (t t' : CountTree Loc) : Prop := Along w t' ∧ (Whole t → Whole t')

/-- The subtrees of a balanced tree are less deep. -/
theorem sub_bounds {l r : CountTree Loc} (h : (node d c a l r).Avl) :
    (-1 ≤ l.delta ∧ l.delta < d) ∧ (-1 ≤ r.delta ∧ r.delta < d) := by
  obtain ⟨hd, -, hl, hr⟩ := h
  have := hl.delta_ge
  have := hr.delta_ge
  rw [depthOf_eq] at hd
  omega

theorem stamp_spec (h : Owns s (node d c a l r) F) (h1 : -2 ^ 31 ≤ depthOf l r) (h2 : depthOf l r < 2 ^ 31) :
    Owns (stamp s a.addr) (mk c a l r) F ∧ Frame s (stamp s a.addr) F := by
  have he := edit_setDepth h.shaped.1 h1 h2
  have hstamp : stamp s a.addr = s.put (setDepth s.mem a.addr (depthOf l r)) := by
    simp only [stamp, h.shaped.1, h.shaped.2.2.2.2.1.depth_eq h.shaped.2.2.2.2.2]
  rw [hstamp]
  exact h.put (h.shaped.edit h.sep he) rfl (within_add_left he.2)

/-- What a branch of `update` leaves of `t` for the last line, which writes the depth. -/
def Branch (res : Except Stop (Nat × AvlSt)) (s : AvlSt) (w : Word) (t : CountTree Loc) (T : CountTree Word)
    (F : Multiset Cell) : Prop :=
  ∃ s' d c a l r, res = .ok (Loc.addr a, s') ∧ Owns s' (node d c a l r) F ∧ Frame s s' F ∧ words (mk c a l r) = T ∧
    Sound w t (mk c a l r)

theorem fixLeft_spec (h : Owns s (node d c a l r) F) (hl : l.Avl) (hr : r.Avl) (h1 : l.delta ≤ r.delta + 2)
    (h2 : r.delta ≤ l.delta + 1) (hg : l.delta = r.delta + 2 → Grown w (words l)) (hb : l.delta < 2 ^ 28)
    (hwa : w < a.word) (hal : Along w (node d c a l r)) :
    Branch (fixLeft s a.addr w.bytes) s w (node d c a l r) (CountTree.fixLeft w d c a.word (words l) (words r)) F := by
  have hgr := hr.delta_ge
  unfold fixLeft CountTree.fixLeft
  rw [h.shaped.balance_eq]
  simp only [ok_bind, delta_words]
  by_cases hbig : 1 < (l.delta - r.delta).natAbs
  · rw [if_pos hbig, if_pos hbig]
    have hgrown := hg (by omega)
    cases l with
    | nil => exact absurd hgrown id
    | node dl cl al ll lr =>
      obtain ⟨⟨hll1, hll2⟩, hlr1, hlr2⟩ := sub_bounds hl
      rw [delta_node] at hb hbig h1 h2
      rw [h.shaped.1]
      simp only [ptr_node, Shaped.deref_eq h.shaped.2.2.2.2.1, ok_bind, h.left.strAt (hal.2.1 hwa).1, words_node]
      rw [along_node, along_node] at hal
      by_cases hw : w < al.word
      · rw [if_pos (Word.strcmp_lt.mpr hw), if_pos hw]
        obtain ⟨m', hrot, hst, hin⟩ :=
          rotateRight_shaped h.shaped h.sep ⟨hll1, by omega⟩ ⟨hlr1, by omega⟩ ⟨hgr, by omega⟩
        obtain ⟨ho, hf⟩ := h.put hst (by simp only [cells_node, cells_mk]; abel) hin
        rw [hrot]
        refine ⟨_, _, cl, al, ll, mk c a lr r, rfl, ho, hf, by rw [words_mk, words_mk]; rfl, ?_, ?_⟩
        · rw [along_mk]
          exact ⟨(hal.2.1 hwa).1, (hal.2.1 hwa).2.1, fun hgt => absurd hw hgt.not_gt⟩
        · simp only [whole_node, whole_mk]
          tauto
      · rw [if_neg (fun hs => hw (Word.strcmp_lt.mp hs)), if_neg hw]
        -- the left child leans to the right, so its right child is there
        obtain ⟨hgt, hlean⟩ : al.word < w ∧ lr.delta = ll.delta + 1 := by
          rcases hgrown with ⟨h0, -⟩ | ⟨hlt, -⟩ | ⟨hgt, hb⟩
          · omega
          · exact absurd hlt hw
          · exact ⟨hgt, by simpa using hb⟩
        cases lr with
        | nil => rw [delta_nil] at hlean; omega
        | node dm cm am ml mr =>
          obtain ⟨⟨hml1, hml2⟩, hmr1, hmr2⟩ := sub_bounds hl.2.2.2
          rw [delta_node] at hlr2
          obtain ⟨m', hrot, hst, hin⟩ := rotateLeftRight_shaped h.shaped h.sep ⟨hll1, by omega⟩ ⟨hml1, by omega⟩
            ⟨hmr1, by omega⟩ ⟨hgr, by omega⟩
          obtain ⟨ho, hf⟩ := h.put hst (by simp only [cells_node, cells_mk]; abel) hin
          rw [hrot]
          refine ⟨_, _, cm, am, mk cl al ll ml, mk c a mr r, rfl, ho, hf, by rw [words_mk, words_mk, words_mk]; rfl, ?_, ?_⟩
          · have ham := (hal.2.1 hwa).2.2 hgt
            simp only [along_mk]
            exact ⟨ham.1, fun hlt => ⟨(hal.2.1 hwa).1, (hal.2.1 hwa).2.1, fun _ => ham.2.1 hlt⟩,
              fun hgt => ⟨hal.1, fun _ => ham.2.2 hgt, hal.2.2⟩⟩
          · simp only [whole_node, whole_mk]
            tauto
  · rw [if_neg hbig, if_neg hbig]
    exact ⟨s, d, c, a, l, r, rfl, h, Frame.refl s F, words_mk c a l r, hal, id⟩

theorem fixRight_spec (h : Owns s (node d c a l r) F) (hl : l.Avl) (hr : r.Avl) (h1 : r.delta ≤ l.delta + 2)
    (h2 : l.delta ≤ r.delta + 1) (hg : r.delta = l.delta + 2 → Grown w (words r)) (hb : r.delta < 2 ^ 28)
    (hwa : a.word < w) (har : Along w (node d c a l r)) :
    Branch (fixRight s a.addr w.bytes) s w (node d c a l r) (CountTree.fixRight w d c a.word (words l) (words r)) F := by
  have hgl := hl.delta_ge
  unfold fixRight CountTree.fixRight
  rw [h.shaped.balance_eq]
  simp only [ok_bind, delta_words]
  by_cases hbig : 1 < (l.delta - r.delta).natAbs
  · rw [if_pos hbig, if_pos hbig]
    have hgrown := hg (by omega)
    cases r with
    | nil => exact absurd hgrown id
    | node dr cr ar rl rr =>
      obtain ⟨⟨hrl1, hrl2⟩, hrr1, hrr2⟩ := sub_bounds hr
      rw [delta_node] at hb hbig h1 h2
      rw [h.shaped.1]
      simp only [ptr_node, Shaped.deref_eq h.shaped.2.2.2.2.2, ok_bind, h.right.strAt (har.2.2 hwa).1, words_node]
      rw [along_node, along_node] at har
      by_cases hw : ar.word < w
      · rw [if_pos (Word.strcmp_gt.mpr hw), if_pos hw]
        obtain ⟨m', hrot, hst, hin⟩ :=
          rotateLeft_shaped h.shaped h.sep ⟨hgl, by omega⟩ ⟨hrl1, by omega⟩ ⟨hrr1, by omega⟩
        obtain ⟨ho, hf⟩ := h.put hst (by simp only [cells_node, cells_mk]; abel) hin
        rw [hrot]
        refine ⟨_, _, cr, ar, mk c a l rl, rr, rfl, ho, hf, by rw [words_mk, words_mk]; rfl, ?_, ?_⟩
        · rw [along_mk]
          exact ⟨(har.2.2 hwa).1, fun hlt => absurd hw hlt.not_gt, (har.2.2 hwa).2.2⟩
        · simp only [whole_node, whole_mk]
          tauto
      · rw [if_neg (fun hs => hw (Word.strcmp_gt.mp hs)), if_neg hw]
        -- the right child leans to the left, so its left child is there
        obtain ⟨hlt, hlean⟩ : w < ar.word ∧ rl.delta = rr.delta + 1 := by
          rcases hgrown with ⟨h0, -⟩ | ⟨hlt, hb⟩ | ⟨hgt, -⟩
          · omega
          · exact ⟨hlt, by simpa using hb⟩
          · exact absurd hgt hw
        cases rl with
        | nil => rw [delta_nil] at hlean; omega
        | node dm cm am ml mr =>
          obtain ⟨⟨hml1, hml2⟩, hmr1, hmr2⟩ := sub_bounds hr.2.2.1
          rw [delta_node] at hrl2
          obtain ⟨m', hrot, hst, hin⟩ := rotateRightLeft_shaped h.shaped h.sep ⟨hgl, by omega⟩ ⟨hml1, by omega⟩
            ⟨hmr1, by omega⟩ ⟨hrr1, by omega⟩
          obtain ⟨ho, hf⟩ := h.put hst (by simp only [cells_node, cells_mk]; abel) hin
          rw [hrot]
          refine ⟨_, _, cm, am, mk c a l ml, mk cr ar mr rr, rfl, ho, hf, by rw [words_mk, words_mk, words_mk]; rfl, ?_, ?_⟩
          · have ham := (har.2.2 hwa).2.1 hlt
            simp only [along_mk]
            exact ⟨ham.1, fun hlt => ⟨har.1, har.2.1, fun _ => ham.2.1 hlt⟩,
              fun hgt => ⟨(har.2.2 hwa).1, fun _ => ham.2.2 hgt, (har.2.2 hwa).2.2⟩⟩
          · simp only [whole_node, whole_mk]
            tauto
  · rw [if_neg hbig, if_neg hbig]
    exact ⟨s, d, c, a, l, r, rfl, h, Frame.refl s F, words_mk c a l r, har, id⟩

/-! ## Insertion -/

/-- One when the word is new. -/
def fresh (w : Word) (T : CountTree Word) : Nat := if T.present w then 0 else 1

/-- The store has become the tree `T`, with the record `v` in its `struct state`. -/
structure Became (s s' : AvlSt) (t' : CountTree Loc) (T : CountTree Word) (p : Nat) (v : State) (F : Multiset Cell) :
    Prop where
  words : words t' = T
  owns : Owns s' t' ({stateCell p} + F)
  frame : Frame s s' F
  state : stateAt s'.mem p = v

/-- The same before the depth of the root is written, of the tree that was `t`. -/
def Ready (s : AvlSt) (w : Word) (t : CountTree Loc) (T : CountTree Word) (p : Nat) (v : State) (F : Multiset Cell)
    (q : Nat × AvlSt) : Prop :=
  ∃ d c a l r, q.1 = Loc.addr a ∧ Owns q.2 (node d c a l r) ({stateCell p} + F) ∧ Frame s q.2 F ∧
    stateAt q.2.mem p = v ∧ Avl.words (mk c a l r) = T ∧ Sound w t (mk c a l r)

/-- What `update` leaves of `t`. -/
def Inserted (s : AvlSt) (w : Word) (t : CountTree Loc) (T : CountTree Word) (p : Nat) (v : State) (F : Multiset Cell)
    (q : Nat × AvlSt) : Prop :=
  ∃ t', q.1 = ptr t' ∧ Became s q.2 t' T p v F ∧ Sound w t t'

variable {T : CountTree Word} {v : State} {E : Stop → Prop}

theorem ready_of_branch {u : CountTree Loc} {res : Except Stop (Nat × AvlSt)}
    (hb : Branch res s' w u T ({stateCell p} + F)) (hu : Whole t → Whole u) (hf : Frame s s' F)
    (hst : stateAt s'.mem p = v) : Outcome E res (Ready s w t T p v F) := by
  obtain ⟨s'', d, c, a, l, r, rfl, ho, hf', hw, hs⟩ := hb
  exact .ok ⟨d, c, a, l, r, rfl, ho, hf.trans (frame_add.mp hf').2, hf'.stateAt_eq.trans hst, hw, hs.1,
    fun ht => hs.2 (hu ht)⟩

theorem Ready.stamp {q : Nat × AvlSt} (h : Ready s w t T p v F q) (h1 : -2 ^ 31 ≤ T.delta) (h2 : T.delta < 2 ^ 31) :
    Inserted s w t T p v F (q.1, stamp q.2 q.1) := by
  obtain ⟨d, c, a, l, r, ha, ho, hf, hst, rfl, hs⟩ := h
  rw [delta_words, delta_mk, ← depthOf_eq] at h1 h2
  obtain ⟨ho', hf'⟩ := stamp_spec ho h1 h2
  rw [ha]
  exact ⟨mk c a l r, rfl, ⟨rfl, ho', hf.trans (frame_add.mp hf').2, hf'.stateAt_eq.trans hst⟩, hs⟩

/-- The last line of `update`, after a branch. -/
theorem Outcome.stamp {res : Except Stop (Nat × AvlSt)} (h : Outcome E res (Ready s w t T p v F))
    (h1 : -2 ^ 31 ≤ T.delta) (h2 : T.delta < 2 ^ 31) :
    Outcome E (res >>= fun q => pure (q.1, Avl.stamp q.2 q.1)) (Inserted s w t T p v F) :=
  h.bind fun _ hq => .ok (hq.stamp h1 h2)

/-- The recursive call left the rest of the node alone, and its answer is the new child. -/
theorem owns_setLeft {l' : CountTree Loc} (h : Shaped s.mem (node d c a l r))
    (h' : Owns s' l' ({nodeCell a} + (strCells a + (cells r + F))))
    (hag : ByteMemory.Agree ({nodeCell a} + (strCells a + cells r)) s.mem s'.mem) :
    Owns (s'.put (setLeft s'.mem a.addr (ptr l'))) (node d c a l' r) F ∧
      Frame s' (s'.put (setLeft s'.mem a.addr (ptr l'))) F := by
  have hsum : cells l' + ({nodeCell a} + (strCells a + (cells r + F))) = cells (node d c a l' r) + F := by
    rw [cells_node]; abel
  have hh := hsum ▸ h'.holds
  obtain ⟨hst, hw⟩ := h.setLeft hag h'.shaped hh.sep.left
  obtain ⟨hh2, hf2⟩ := holds_put hh (within_add_left hw)
  exact ⟨⟨hh2, hst⟩, hf2⟩

theorem owns_setRight {r' : CountTree Loc} (h : Shaped s.mem (node d c a l r))
    (h' : Owns s' r' ({nodeCell a} + (strCells a + (cells l + F))))
    (hag : ByteMemory.Agree ({nodeCell a} + (strCells a + cells l)) s.mem s'.mem) :
    Owns (s'.put (setRight s'.mem a.addr (ptr r'))) (node d c a l r') F ∧
      Frame s' (s'.put (setRight s'.mem a.addr (ptr r'))) F := by
  have hsum : cells r' + ({nodeCell a} + (strCells a + (cells l + F))) = cells (node d c a l r') + F := by
    rw [cells_node]; abel
  have hh := hsum ▸ h'.holds
  obtain ⟨hst, hw⟩ := h.setRight hag h'.shaped hh.sep.left
  obtain ⟨hh2, hf2⟩ := holds_put hh (within_add_left hw)
  exact ⟨⟨hh2, hst⟩, hf2⟩

/-- The cells of the node, its word and its other subtree among those of a frame. -/
theorem frame_rest {G' H : Multiset Cell} {e : Cell} (h : Frame s s' ({e} + (H + (G + G')))) :
    Frame s s' ({e} + (H + G)) ∧ Frame s s' G' := by
  have hsum : ({e} : Multiset Cell) + (H + (G + G')) = ({e} + (H + G)) + G' := by abel
  exact frame_add.mp (hsum ▸ h)

/-- The word goes to the left: from what the recursive call leaves there, `update` makes the
    tree with the word in it. -/
theorem inserted_left {res : Except Stop (Nat × AvlSt)} (h : Owns s (node d c a l r) ({stateCell p} + F)) (hl : l.Avl)
    (hr : r.Avl) (hd : (l.delta - r.delta).natAbs ≤ 1) (hdl : l.delta < 2 ^ 27)
    (hT : CountTree.fixLeft w d c a.word ((words l).insert next w) (words r) = T)
    (h1 : -2 ^ 31 ≤ T.delta) (h2 : T.delta < 2 ^ 31) (hwa : w < a.word) (hne : a.str ≠ 0)
    (hres : Outcome E res
      (Inserted s w l ((words l).insert next w) p v ({nodeCell a} + (strCells a + (cells r + F))))) :
    Outcome E
      (res >>= fun q => fixLeft (q.2.put (setLeft q.2.mem a.addr q.1)) a.addr w.bytes >>= fun q =>
        pure (q.1, Avl.stamp q.2 q.1))
      (Inserted s w (node d c a l r) T p v F) := by
  have hsum : ({nodeCell a} : Multiset Cell) + (strCells a + (cells r + ({stateCell p} + F))) =
      {stateCell p} + ({nodeCell a} + (strCells a + (cells r + F))) := by abel
  apply hres.bind
  intro q hq
  obtain ⟨left, s1⟩ := q
  obtain ⟨l', rfl, hb, hs⟩ := hq
  obtain ⟨hrest, hfr⟩ := frame_rest hb.frame
  obtain ⟨ho, hf2⟩ := owns_setLeft h.shaped (hsum ▸ hb.owns) hrest.agree
  obtain ⟨hla, hlg1, hlg2, hgrown⟩ := @insert_avl _ _ next w _ ((avl_words _).mpr hl)
  have hdl' : ((words l).insert next w).delta = l'.delta := by rw [← hb.words, delta_words]
  have hla' : l'.Avl := (avl_words _).mp (hb.words ▸ hla)
  rw [hdl', delta_words] at hlg1 hlg2 hgrown
  have hbr := @fixLeft_spec _ _ _ _ _ _ _ w ho hla' hr (by omega) (by omega)
    (fun _ => hb.words ▸ hgrown (by omega)) (by omega) hwa ⟨hne, fun _ => hs.1, fun hgt => absurd hwa hgt.not_gt⟩
  rw [hb.words, hT] at hbr
  exact Outcome.stamp (ready_of_branch hbr (fun ht => ⟨hne, hs.2 ht.2.1, ht.2.2⟩) (hfr.trans (frame_add.mp hf2).2)
    (hf2.stateAt_eq.trans hb.state)) h1 h2

theorem inserted_right {res : Except Stop (Nat × AvlSt)} (h : Owns s (node d c a l r) ({stateCell p} + F)) (hl : l.Avl)
    (hr : r.Avl) (hd : (l.delta - r.delta).natAbs ≤ 1) (hdr : r.delta < 2 ^ 27)
    (hT : CountTree.fixRight w d c a.word (words l) ((words r).insert next w) = T)
    (h1 : -2 ^ 31 ≤ T.delta) (h2 : T.delta < 2 ^ 31) (hwa : a.word < w) (hne : a.str ≠ 0)
    (hres : Outcome E res
      (Inserted s w r ((words r).insert next w) p v ({nodeCell a} + (strCells a + (cells l + F))))) :
    Outcome E
      (res >>= fun q => fixRight (q.2.put (setRight q.2.mem a.addr q.1)) a.addr w.bytes >>= fun q =>
        pure (q.1, Avl.stamp q.2 q.1))
      (Inserted s w (node d c a l r) T p v F) := by
  have hsum : ({nodeCell a} : Multiset Cell) + (strCells a + (cells l + ({stateCell p} + F))) =
      {stateCell p} + ({nodeCell a} + (strCells a + (cells l + F))) := by abel
  apply hres.bind
  intro q hq
  obtain ⟨right, s1⟩ := q
  obtain ⟨r', rfl, hb, hs⟩ := hq
  obtain ⟨hrest, hfr⟩ := frame_rest hb.frame
  obtain ⟨ho, hf2⟩ := owns_setRight h.shaped (hsum ▸ hb.owns) hrest.agree
  obtain ⟨hra, hrg1, hrg2, hgrown⟩ := @insert_avl _ _ next w _ ((avl_words _).mpr hr)
  have hdr' : ((words r).insert next w).delta = r'.delta := by rw [← hb.words, delta_words]
  have hra' : r'.Avl := (avl_words _).mp (hb.words ▸ hra)
  rw [hdr', delta_words] at hrg1 hrg2 hgrown
  have hbr := @fixRight_spec _ _ _ _ _ _ _ w ho hl hra' (by omega) (by omega)
    (fun _ => hb.words ▸ hgrown (by omega)) (by omega) hwa ⟨hne, fun hlt => absurd hwa hlt.not_gt, fun _ => hs.1⟩
  rw [hb.words, hT] at hbr
  exact Outcome.stamp (ready_of_branch hbr (fun ht => ⟨hne, ht.2.1, hs.2 ht.2.2⟩) (hfr.trans (frame_add.mp hf2).2)
    (hf2.stateAt_eq.trans hb.state)) h1 h2

/-- Want of room, for a word that is not there: only then a node is made. -/
def Missing (T : CountTree Word) (w : Word) (e : Stop) : Prop := Full e ∧ T.present w = false

/-- And the allocations of the node do not both come back. -/
def Unanswered (s : AvlSt) (T : CountTree Word) (w : Word) (e : Stop) : Prop := Missing T w e ∧ ¬ Answers s w.bytes

theorem unanswered_congr {T T' : CountTree Word} {w : Word} (h : T.present w = T'.present w) :
    Unanswered s T w = Unanswered s T' w := by
  funext e
  rw [Unanswered, Unanswered, Missing, Missing, h]

theorem update_spec (t : CountTree Loc) (w : Word) : ∀ {fuel : Nat} {s : AvlSt} {F : Multiset Cell}, s.state = p →
    Owns s t ({stateCell p} + F) → ((words t).present w = false → Supplied s) → stateAt s.mem p = ⟨i, u, x⟩ → t.Avl →
      t.delta < 2 ^ 27 → t.delta + 1 < fuel → Along w t →
    Outcome (Unanswered s (words t) w) (update fuel s (ptr t) w.bytes) fun q =>
      ((words t).present w = false → Answers s w.bytes) ∧
      Inserted s w t ((words t).insert next w) p ⟨next i, (u + fresh w (words t)) % 2 ^ 64, x⟩ F q := by
  induction t with
  | nil =>
    intro fuel s F hp h hf hst _ _ hfuel _
    obtain ⟨fuel, rfl⟩ : ∃ k, fuel = k + 1 := ⟨fuel - 1, by rw [delta_nil] at hfuel; omega⟩
    rw [update, ptr_nil, if_pos rfl]
    refine ((newNode_spec hp (by simpa using h.holds) (hf rfl) hst w).weaken fun e he => ⟨⟨he.1, rfl⟩, he.2⟩).mono ?_
    intro q hq
    obtain ⟨q, s'⟩ := q
    obtain ⟨hans, a, hq, hne, hw, ho, hfr, hst'⟩ := hq
    refine ⟨fun _ => hans, node 0 1 a nil nil, hq, ⟨by rw [words_node, hw]; rfl, ho, hfr, hst'⟩, ?_, ?_⟩
    · exact ⟨hne, fun _ => trivial, fun _ => trivial⟩
    · exact fun _ => ⟨hne, trivial, trivial⟩
  | node d c a l r ihl ihr =>
    intro fuel s F hp h hf hst havl hdelta hfuel hal
    obtain ⟨fuel, rfl⟩ : ∃ k, fuel = k + 1 := ⟨fuel - 1, by have := havl.delta_ge; omega⟩
    obtain ⟨⟨hl1, hl2⟩, hr1, hr2⟩ := sub_bounds havl
    have hins := @insert_avl _ _ next w _ ((avl_words _).mpr havl)
    obtain ⟨hdep, hd, hl, hr⟩ := havl
    obtain ⟨hne, hall, halr⟩ := hal
    rw [delta_words] at hins
    rw [delta_node] at hdelta hfuel hins
    rw [update, ptr_node, if_neg h.shaped.2.2.1.1, h.shaped.1]
    simp only [h.strAt hne, ok_bind]
    have hsum : ∀ G, ({nodeCell a} : Multiset Cell) + (strCells a + (G + ({stateCell p} + F))) =
        {stateCell p} + ({nodeCell a} + (strCells a + (G + F))) := fun G => by abel
    rcases lt_trichotomy w a.word with hlt | he | hgt
    · have hpres : (words (node d c a l r)).present w = (words l).present w := by
        rw [words_node, present, if_neg hlt.ne, if_pos hlt]
      have hfresh : fresh w (words (node d c a l r)) = fresh w (words l) := by rw [fresh, fresh, hpres]
      have hT : (words (node d c a l r)).insert next w =
          CountTree.fixLeft w d c a.word ((words l).insert next w) (words r) := by
        rw [words_node, CountTree.insert, if_neg hlt.ne, if_pos hlt]
      rw [hT] at hins ⊢
      rw [if_neg (fun hs => hlt.ne (Word.strcmp_eq.mp hs)), if_pos (Word.strcmp_lt.mpr hlt), hfresh,
        unanswered_congr hpres, hpres]
      have hleft := @ihl fuel s _ hp (hsum _ ▸ h.left) (by rwa [← hpres]) hst hl (by omega) (by omega) (hall hlt)
      exact hleft.keep fun hleft => inserted_left h hl hr hd (by omega) rfl (by omega) (by omega) hlt hne hleft
    · -- the word is here
      have hpres : (words (node d c a l r)).present w = true := by rw [words_node, present, if_pos he]
      have hu : u < 2 ^ 64 := by
        rw [show u = (stateAt s.mem p).unique by rw [hst]]
        exact Mem.load_lt s.mem (p + 8) 8
      obtain ⟨ho, hfr, hst'⟩ := bump_spec hp h hst
      have hfresh : (u + fresh w (words (node d c a l r))) % 2 ^ 64 = u := by
        rw [fresh, if_pos hpres, Nat.add_zero, Nat.mod_eq_of_lt hu]
      rw [if_pos (Word.strcmp_eq.mpr he), hfresh, hpres]
      have hready : Outcome (Unanswered s (words (node d c a l r)) w) (pure (a.addr, bump s a.addr))
          (Ready s w (node d c a l r) ((words (node d c a l r)).insert next w) p ⟨next i, u, x⟩ F) := by
        refine .ok ⟨d, next c, a, l, r, rfl, ho, hfr, hst', ?_, ⟨hne, hall, halr⟩, id⟩
        rw [words_mk, words_node, CountTree.insert, if_pos he]
      refine (Outcome.stamp hready (by omega) (by omega)).mono fun q hq => ⟨fun hno => ?_, hq⟩
      cases hno
    · have hpres : (words (node d c a l r)).present w = (words r).present w := by
        rw [words_node, present, if_neg hgt.ne', if_neg hgt.not_gt]
      have hfresh : fresh w (words (node d c a l r)) = fresh w (words r) := by rw [fresh, fresh, hpres]
      have hT : (words (node d c a l r)).insert next w =
          CountTree.fixRight w d c a.word (words l) ((words r).insert next w) := by
        rw [words_node, CountTree.insert, if_neg hgt.ne', if_neg hgt.not_gt]
      rw [hT] at hins ⊢
      rw [if_neg (fun hs => hgt.ne' (Word.strcmp_eq.mp hs)), if_neg (fun hs => hgt.not_gt (Word.strcmp_lt.mp hs)),
        hfresh, unanswered_congr hpres, hpres]
      have hright := @ihr fuel s _ hp (hsum _ ▸ h.right) (by rwa [← hpres]) hst hr (by omega) (by omega) (halr hgt)
      exact hright.keep fun hright => inserted_right h hl hr hd (by omega) rfl (by omega) (by omega) hgt hne hright

end Cs238p.Avl
