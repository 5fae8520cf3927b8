/-
  Cs238p.Avl.Blocks — the tree and the allocator agree on ownership.

  The calls are run once more with a `scm_free` that refuses a block that is not in use
  (`freeInUse`); everything else is as in `Avl`, and with `scm_free` itself it is `Avl`
  (`sessionWith_free`).

  Proved over every sequence of insertions and deletions: no free is refused, and in every
  state that is reached the blocks in use are the state, the nodes that the root leads to
  and their words, all distinct, each word its node's (`blocks_are_owned`).
-/
import Cs238p.Avl.Runs

namespace Cs238p.Avl

open ByteMemory Scm AvlTree CountTree

/-! ## Blocks in use -/

/-- `p` is a block of the region, and its header says that it is in use. -/
def InUse (s : AvlSt) (p : Nat) : Prop := scmAllocatedAddr s.scm p = .ok true ∧ inUseAt s.mem p ≠ 0

instance (s : AvlSt) (p : Nat) : Decidable (InUse s p) := inferInstanceAs (Decidable (_ ∧ _))

/-- `scm_free`, of a block in use only. The refusal is a stop that `session_holding`
    excludes. -/
def freeInUse (s : AvlSt) (p : Nat) : Except Stop AvlSt := if InUse s p then free s p else .error .null

section With

-- what frees a block
variable (freeBlock : AvlSt → Nat → Except Stop AvlSt)

def discardWith (s : AvlSt) (root : Nat) : Except Stop AvlSt := do
  let s ← freeBlock s (nodeAt s.mem root).item
  freeBlock s root

def takeOverWith (s : AvlSt) (root temp : Nat) : Except Stop AvlSt := do
  let old := (nodeAt s.mem root).item
  let (str, s) ← strdup s (← s.strAt (nodeAt s.mem temp).item)
  let s := s.put (setItem s.mem root str)
  let s := s.put (setCount s.mem root (nodeAt s.mem temp).count)
  let s ← freeBlock s old
  return s.put (setCount s.mem temp 1)

def deleteWith : Nat → AvlSt → Nat → Str → Except Stop (Nat × AvlSt)
  | 0, _, _, _ => .error .fuel
  | fuel + 1, s, root, item =>
    if root = 0 then pure (0, s)
    else do
      let node := nodeAt s.mem root
      let cmp := strcmp (← item.get s) (← s.strAt node.item)
      if cmp < 0 then do
        let (left, s) ← deleteWith fuel s node.left item
        restore (s.put (setLeft s.mem root left)) root
      else if cmp > 0 then do
        let (right, s) ← deleteWith fuel s node.right item
        restore (s.put (setRight s.mem root right)) root
      else if node.count > 1 then restore (s.put (setCount s.mem root (node.count - 1))) root
      else if node.left = 0 then return (node.right, ← discardWith freeBlock s root)
      else if node.right = 0 then return (node.left, ← discardWith freeBlock s root)
      else do
        let temp ← findMin s.mem fuel node.right
        let s ← takeOverWith freeBlock s root temp
        let (right, s) ← deleteWith fuel s node.right (.region (nodeAt s.mem temp).item)
        restore (s.put (setRight s.mem root right)) root

def avlDeleteWith (fuel : Nat) (s : AvlSt) (item : List UInt8) : Except Stop (Int × AvlSt) :=
  if item = [] then .error .assert
  else do
    let count := toInt32 (← avlExists fuel s item)
    if count = 0 then .error .assert
    else do
      let s := uncount s count
      let (root, s) ← deleteWith freeBlock fuel s (stateAt s.mem s.state).root (.client item)
      return (0, s.put (setRoot s.mem s.state root))

def stepWith (fuel : Nat) (s : AvlSt) : Op → Except Stop AvlSt
  | .insert w => do
    let (_, s) ← avlInsert fuel s w.bytes
    return s
  | .delete w => do
    let (_, s) ← avlDeleteWith freeBlock fuel s w.bytes
    return s

def runWith (fuel : Nat) : AvlSt → List Op → Except Stop AvlSt
  | s, [] => .ok s
  | s, op :: ops => do
    let s ← stepWith freeBlock fuel s op
    runWith fuel s ops

def sessionWith (fuel size : Nat) (hs : vmStart + size < 2 ^ 64) (file : Mem) (ops : List Op) : Except Stop AvlSt := do
  match ← avlOpen size hs file true [] with
  | none => .error .null
  | some s => runWith freeBlock fuel s ops

end With

variable {s s' : AvlSt} {t t' l r : CountTree Loc} {a b : Loc} {F G : Multiset Cell} {p c k n fuel size : Nat} {d : Int}
  {hs : vmStart + size < 2 ^ 64} {file : Mem} {ops : List Op}

/-! ## With `scm_free` itself -/

theorem deleteWith_free : ∀ (fuel : Nat) (s : AvlSt) (root : Nat) (item : Str),
    deleteWith free fuel s root item = delete fuel s root item := by
  intro fuel
  induction fuel with
  | zero => exact fun _ _ _ => rfl
  | succ fuel ih =>
    intro s root item
    rw [deleteWith, delete]
    simp only [ih]
    rfl

theorem runWith_free : ∀ (ops : List Op) (s : AvlSt), runWith free fuel s ops = run fuel s ops := by
  intro ops
  induction ops with
  | nil => exact fun _ => rfl
  | cons op ops ih =>
    intro s
    have hstep : stepWith free fuel s op = step fuel s op := by
      cases op with
      | insert w => rfl
      | delete w => simp only [stepWith, step, avlDeleteWith, avlDelete, deleteWith_free]
    rw [runWith, run, hstep]
    simp only [ih]

/-- The calls above are the calls of `Avl`. -/
theorem sessionWith_free (fuel size : Nat) (hs : vmStart + size < 2 ^ 64) (file : Mem) (ops : List Op) :
    sessionWith free fuel size hs file ops = session fuel size hs file ops := by
  refine congrArg (avlOpen size hs file true [] >>= ·) (funext ?_)
  intro r
  cases r with
  | none => rfl
  | some s => exact runWith_free ops s

/-! ## No free is refused -/

theorem inUse_iff {bs : List Arena.Blk} (h : HeapRepr s.scm bs) : InUse s p ↔ p ∈ Scm.inUse bs := by
  have hmem : p ∈ Scm.inUse bs ↔ ∃ b ∈ bs, b.inUse = true ∧ b.addr = p := by
    simp only [Scm.inUse, Multiset.mem_coe, List.mem_map, List.mem_filter, and_assoc]
  rw [InUse, h.allocated p, hmem]
  simp only [Except.ok.injEq, decide_eq_true_iff, List.mem_map]
  constructor
  · intro hu
    obtain ⟨⟨b, hb, rfl⟩, hne⟩ := hu
    refine ⟨b, hb, ?_, rfl⟩
    by_contra hf
    exact hne ((h.headers b hb).1.trans (if_neg hf))
  · intro hu
    obtain ⟨b, hb, hu, rfl⟩ := hu
    refine ⟨⟨b, hb, rfl⟩, ?_⟩
    rw [show inUseAt s.mem b.addr = _ from (h.headers b hb).1, if_pos hu]
    decide

theorem inUse_iff_holds (h : Holds s.scm F) : InUse s p ↔ p ∈ F.map Prod.fst := by
  obtain ⟨bs, hr, hF, -⟩ := h
  rw [hF]
  exact inUse_iff hr

/-- A cell that is held is freed. -/
theorem freeInUse_eq (h : Holds s.scm ({(p, n)} + F)) : freeInUse s p = free s p := by
  have hmem : p ∈ ({(p, n)} + F : Multiset Cell).map Prod.fst := by simp
  rw [freeInUse, if_pos ((inUse_iff_holds h).mpr hmem)]

theorem discardWith_eq (h : Holds s.scm ({nodeCell a} + (strCells a + G))) (ha : a.str ≠ 0)
    (hn : (nodeAt s.mem a.addr).item = a.str) : discardWith freeInUse s a.addr = discard s a.addr := by
  rw [strCells_of_ne ha] at h
  have hsum : ({nodeCell a} : Multiset Cell) + ({strCell a} + G) = {strCell a} + ({nodeCell a} + G) := by abel
  obtain ⟨s1, he1, hh1, -⟩ := free_spec (hsum ▸ h)
  rw [discardWith, discard, hn, freeInUse_eq (hsum ▸ h), he1]
  exact freeInUse_eq hh1

/-- The old word of a node that takes over is in use still. -/
theorem takeOverWith_eq (h : Owns s (node d c a l r) F) (hw : Whole (node d c a l r)) (hm : r.min? = some (b, k)) :
    takeOverWith freeInUse s a.addr b.addr = takeOver s a.addr b.addr := by
  have hcopied := copied_spec h hm
  unfold takeOverWith takeOver
  rw [(h.shaped.2.2.2.2.2.min hm).1, h.shaped.1]
  simp only [h.right.min_str hm (hw.2.2.min hm), ok_bind]
  cases hdup : strdup s b.word.bytes with
  | error e => rfl
  | ok x =>
    obtain ⟨q, s1⟩ := x
    rw [hdup] at hcopied
    cases hcopied with
    | ok hc =>
      obtain ⟨-, hk, -, h3⟩ := hc
      have hfree : cells (node d k ⟨a.addr, q, b.word⟩ l r) + (strCells a + F) =
          {strCell a} + (cells (node d k ⟨a.addr, q, b.word⟩ l r) + F) := by
        rw [strCells_of_ne hw.1]; abel
      have heq := freeInUse_eq (hfree ▸ h3.holds)
      simp only [copied, mem_put] at heq
      simp only at hk
      simp only [ok_bind, mem_put, hk, heq]

/-- Wherever `delete` frees a block the block is in use. -/
theorem deleteWith_eq (fuel : Nat) : ∀ {s : AvlSt} {t : CountTree Loc} {F : Multiset Cell} {item : Str} {w : Word},
    Owns s t F → Whole t → item.get s = .ok w.bytes → t.Avl → (words t).Ordered → t.delta + 1 < fuel →
    deleteWith freeInUse fuel s (ptr t) item = delete fuel s (ptr t) item := by
  induction fuel with
  | zero =>
    intro s t F item w _ _ _ havl _ hfuel
    have := havl.delta_ge
    omega
  | succ fuel ih =>
    intro s t F item w h hw hitem havl hord hfuel
    cases t with
    | nil =>
      rw [deleteWith, delete, ptr_nil, if_pos rfl, if_pos rfl]
    | node d c a l r =>
      obtain ⟨⟨hl1, hl2⟩, hr1, hr2⟩ := sub_bounds havl
      obtain ⟨hordl, hordr, -, -⟩ := ordered_node.mp hord
      change (words l).Ordered at hordl
      change (words r).Ordered at hordr
      obtain ⟨hdep, hd, hl, hr⟩ := havl
      rw [delta_node] at hfuel
      have hleft := ih h.left hw.2.1 hitem hl hordl (by omega)
      have hright := ih h.right hw.2.2 hitem hr hordr (by omega)
      rw [deleteWith, delete, ptr_node, if_neg h.shaped.2.2.1.1, if_neg h.shaped.2.2.1.1, h.shaped.1]
      simp only [hitem, h.strAt hw.1, ok_bind, hleft, hright]
      have hsum : cells (node d c a l r) + F = {nodeCell a} + (strCells a + (cells l + cells r + F)) := by
        rw [cells_node]; abel
      rw [discardWith_eq (hsum ▸ h.holds) hw.1 (by rw [h.shaped.1])]
      split_ifs with hlt hgt hc hln hrn
      · rfl
      · rfl
      · rfl
      · rfl
      · rfl
      · -- the next word takes the place, and its node is deleted
        have hrn' : r ≠ nil := fun h0 => hrn (h.shaped.2.2.2.2.2.ptr_eq_zero.mpr h0)
        obtain ⟨b, k, hm⟩ := exists_min hrn'
        rw [findMin_spec h.shaped.2.2.2.2.2 hr (by omega) hm]
        simp only [ok_bind]
        rw [takeOverWith_eq h hw hm]
        have htook := takeOver_spec h hw.1 hm
        cases htake : takeOver s a.addr b.addr with
        | error e => rfl
        | ok s1 =>
          rw [htake] at htook
          cases htook with
          | ok hq =>
            obtain ⟨q, hb, -, -, h1⟩ := hq
            have hwm : words (setMin 1 r) = setMin 1 (words r) := map_setMin _ _ _
            have hihr := ih h1.right ((whole_setMin 1 r).mpr hw.2.2) (next_key h1 hm hb) ((avl_setMin 1 r).mpr hr)
              (hwm ▸ hordr.setMin 1) (by rw [delta_setMin]; omega)
            rw [ptr_setMin] at hihr
            simp only [ok_bind, hihr]

theorem Holding.deleteWith_eq (h : Holding s t) (w : Word) (hfuel : t.delta + 1 < fuel) :
    avlDeleteWith freeInUse fuel s w.bytes = avlDelete fuel s w.bytes := by
  rw [avlDeleteWith, avlDelete, if_neg w.nonempty, if_neg w.nonempty, h.exists_spec hfuel]
  simp only [ok_bind]
  split
  · rfl
  · obtain ⟨ho, hp, -, hst⟩ := h.leaky.uncount_spec (toInt32 ((words t).find w))
    rw [hp, hst]
    rw [Avl.deleteWith_eq fuel ho h.whole rfl h.avl h.ordered hfuel]

theorem runWith_eq (hfuel : 120 ≤ fuel) : ∀ (ops : List Op) {s : AvlSt} {t : CountTree Loc}, Holding s t →
    runWith freeInUse fuel s ops = run fuel s ops := by
  intro ops
  induction ops with
  | nil => exact fun _ => rfl
  | cons op ops ih =>
    intro s t h
    have hdelta := h.owns.delta_le h.avl
    have hstep : stepWith freeInUse fuel s op = step fuel s op := by
      cases op with
      | insert w => rfl
      | delete w => rw [stepWith, step, h.deleteWith_eq w (by omega)]
    have hnext := step_holding h (show t.delta + 1 < fuel by omega) op
    rw [runWith, run, hstep]
    cases hs : step fuel s op with
    | error e => rw [error_bind, error_bind]
    | ok s' =>
      rw [hs] at hnext
      cases hnext with
      | ok h' =>
        obtain ⟨t', h', -⟩ := h'
        simp only [ok_bind, ih h']

/-- Every block that is freed in a run is in use then. -/
theorem sessionWith_eq (fuel size : Nat) (hs : vmStart + size < 2 ^ 64) (file : Mem) (ops : List Op)
    (hfuel : 120 ≤ fuel) :
    sessionWith freeInUse fuel size hs file ops = session fuel size hs file ops := by
  have hopen := @open_spec size hs file
  rw [← sessionWith_free]
  unfold sessionWith
  generalize avlOpen size hs file true [] = r at hopen ⊢
  cases hopen with
  | error _ => rw [error_bind, error_bind]
  | ok h =>
    obtain ⟨s, rfl, h, -⟩ := h
    simp only [ok_bind, runWith_eq hfuel ops h, runWith_free]

/-! ## Ownership -/

/-- The pointers lead from `q` to `p`. -/
inductive Leads (m : Mem) : Nat → Nat → Prop
  | here {q : Nat} : q ≠ 0 → Leads m q q
  | left {q p : Nat} : q ≠ 0 → Leads m (nodeAt m q).left p → Leads m q p
  | right {q p : Nat} : q ≠ 0 → Leads m (nodeAt m q).right p → Leads m q p

def locs (t : CountTree Loc) : List Loc := t.toList.map Prod.fst

@[simp] theorem locs_node (d : Int) (c : Nat) (a : Loc) (l r : CountTree Loc) :
    locs (node d c a l r) = locs l ++ a :: locs r := by
  simp [locs, toList]

/-- The blocks of the nodes and of their words. -/
def blocks (t : CountTree Loc) : List Nat := (locs t).flatMap fun a => [a.addr, a.str]

theorem map_fst_cells (h : Whole t) : (cells t).map Prod.fst = blocks t := by
  induction t with
  | nil => rfl
  | node d c a l r ihl ihr =>
    have hblocks : (blocks (node d c a l r) : Multiset Nat) =
      blocks l + (([a.addr, a.str] : List Nat) + (blocks r : Multiset Nat)) := by
      simp [blocks]
    rw [cells_node, strCells_of_ne h.1, Multiset.map_add, Multiset.map_add, Multiset.map_add, ihl h.2.1, ihr h.2.2,
      hblocks, ← Multiset.cons_coe, ← Multiset.cons_coe, Multiset.coe_nil]
    simp only [Multiset.map_singleton, nodeCell, strCell, ← Multiset.singleton_add]
    abel

theorem leads_iff {m : Mem} (h : Shaped m t) : Leads m (ptr t) p ↔ p ∈ (locs t).map Loc.addr := by
  induction t with
  | nil =>
    constructor
    · intro hl
      cases hl with
      | here h0 => exact absurd rfl h0
      | left h0 _ => exact absurd rfl h0
      | right h0 _ => exact absurd rfl h0
    · intro hp
      cases hp
  | node d c a l r ihl ihr =>
    obtain ⟨hn, -, ha, -, hl, hr⟩ := h
    have hleft : (nodeAt m a.addr).left = ptr l := by rw [hn]
    have hright : (nodeAt m a.addr).right = ptr r := by rw [hn]
    rw [locs_node, List.map_append, List.map_cons, List.mem_append, List.mem_cons, ← ihl hl, ← ihr hr, ptr_node]
    constructor
    · intro hp
      cases hp with
      | here _ => exact Or.inr (Or.inl rfl)
      | left _ hp => exact Or.inl (hleft ▸ hp)
      | right _ hp => exact Or.inr (Or.inr (hright ▸ hp))
    · intro hp
      rcases hp with hp | rfl | hp
      · exact .left ha.1 (hleft.symm ▸ hp)
      · exact .here ha.1
      · exact .right ha.1 (hright.symm ▸ hp)

theorem Owns.item (h : Owns s t F) (hw : Whole t) :
    ∀ a ∈ locs t, (nodeAt s.mem a.addr).item = a.str ∧ s.strAt a.str = .ok a.word.bytes := by
  induction t generalizing F with
  | nil => exact fun a ha => absurd ha List.not_mem_nil
  | node d c b l r ihl ihr =>
    intro a ha
    rw [locs_node, List.mem_append, List.mem_cons] at ha
    rcases ha with ha | rfl | ha
    · exact ihl h.left hw.2.1 a ha
    · exact ⟨by rw [h.shaped.1], h.strAt hw.1⟩
    · exact ihr h.right hw.2.2 a ha

/-- Whose the blocks in use are. -/
structure Owned (s : AvlSt) (t : CountTree Loc) : Prop where
  /-- The nodes of `t` are those that the root leads to. -/
  nodes : ∀ p, Leads s.mem (stateAt s.mem s.state).root p ↔ p ∈ (locs t).map Loc.addr
  inUse : ∀ p, InUse s p ↔ p ∈ s.state :: blocks t
  distinct : (s.state :: blocks t).Nodup
  /-- The block of a node is behind its `item`, and holds its word. -/
  items : ∀ a ∈ locs t, (nodeAt s.mem a.addr).item = a.str ∧ s.strAt a.str = .ok a.word.bytes

theorem Holding.owned (h : Holding s t) : Owned s t := by
  have hheld : (cells t + {stateCell (base + 16)}).map Prod.fst =
    ((s.state :: blocks t : List Nat) : Multiset Nat) := by
    rw [Multiset.map_add, map_fst_cells h.whole, h.state, ← Multiset.cons_coe, ← Multiset.singleton_add, add_comm]
    rfl
  refine ⟨?_, ?_, ?_, h.owns.item h.whole⟩
  · intro p
    rw [h.state, h.root]
    exact leads_iff h.owns.shaped
  · intro p
    rw [inUse_iff_holds h.owns.holds, hheld, Multiset.mem_coe]
  · obtain ⟨bs, hr, hF, -⟩ := h.owns.holds
    rw [← Multiset.coe_nodup, ← hheld, hF]
    exact nodup_inUse hr

/-- From an empty store, whatever is inserted and deleted: the blocks in use are the state,
    the nodes and their words, and every block that is freed is in use until then. -/
theorem blocks_are_owned (fuel size : Nat) (hs : vmStart + size < 2 ^ 64) (file : Mem) (ops : List Op)
    (hfuel : 120 ≤ fuel) :
    Outcome Refused (session fuel size hs file ops) (fun s => ∃ t, Owned s t ∧ words t = ops.foldl Op.grow nil) ∧
      sessionWith freeInUse fuel size hs file ops = session fuel size hs file ops := by
  refine ⟨(session_holding fuel size hs file ops hfuel).mono ?_, sessionWith_eq fuel size hs file ops hfuel⟩
  intro s h
  obtain ⟨t, h, hw⟩ := h
  exact ⟨t, h.owned, hw⟩

theorem blocks_are_owned_few_words : ∃ s, session 120 4096 (by decide) blank fewWords = .ok s ∧ (∃ t, Owned s t) ∧
    sessionWith freeInUse 120 4096 (by decide) blank fewWords = .ok s := by
  obtain ⟨s, hs, -⟩ := exists_ok_of_map session_fewWords
  obtain ⟨hout, hwith⟩ := blocks_are_owned 120 4096 (by decide) blank fewWords (by decide)
  obtain ⟨s', hs', t, ho, -⟩ := hout.exists_ok fun e he => by rw [hs] at he; cases he
  exact ⟨s', hs', ⟨t, ho⟩, hwith.trans hs'⟩

end Cs238p.Avl
