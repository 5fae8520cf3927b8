/-
  Cs238p.Jit.AllocProofs — the parser owns its memory.

  `Stored m p d S`: the tree `d` is at the pointer `p`, in the nodes `S`. Along the descent
  the nodes of the operand to the left stay as they are (`Grown`), so every function does
  what the one of `Parser.lean` does (`Sim`), in nodes of its own, or a request was refused
  and NULL comes back.

    * `compile_owns_its_memory` — no block that is not allocated is touched or freed, and of
      an accepted text every block is free again
    * `a_rejected_text_leaks` — of a rejected one the nodes stay
-/
import Cs238p.Lib.Outcome
import Cs238p.Jit.Alloc
import Cs238p.Jit.ParserProofs

namespace Cs238p.Jit.Alloc

open Blocks

variable {V : Type} {A : Allocator} {m m' m'' : Memory V} {a : Nat} {c : DagCell V} {S T : Finset Nat} {d l r : ParserDag V}
  {pl pr ptr : Option Nat}

/-! ## Nodes -/

def Block.IsDag (b : Block V) : Prop := ∃ c, b = .dag c

theorem readDag_ok (ha : a ∈ m.live) (hc : m.cell a = .dag c) : readDag m a = .ok c := by
  rw [readDag, if_pos ha, hc]

theorem editDag_ok (f : DagCell V → DagCell V) (ha : a ∈ m.live) (hc : m.cell a = .dag c) :
    editDag m a f = .ok (m.set a (.dag (f c))) := by
  rw [editDag, readDag_ok ha hc]

theorem free_ok (ha : a ∈ m.live) : free m (some a) = .ok (m.free a) := if_pos ha

/-- The tree at a pointer, and its nodes. -/
inductive Stored (m : Memory V) : Option Nat → ParserDag V → Finset Nat → Prop
  | null : Stored m none .null ∅
  | node {a : Nat} {op : DagOp} {val : V} {pl pr : Option Nat} {l r : ParserDag V} {L R : Finset Nat} :
      a ∈ m.live → m.cell a = .dag ⟨op, val, pl, pr⟩ → Stored m pl l L → Stored m pr r R → Disjoint L R → a ∉ L ∪ R →
      Stored m (some a) (.node op val l r) (insert a (L ∪ R))

theorem Stored.subset (h : Stored m ptr d S) : S ⊆ m.live := by
  induction h with
  | null => exact Finset.empty_subset _
  | node ha _ _ _ _ _ ihl ihr => exact Finset.insert_subset ha (Finset.union_subset ihl ihr)

theorem Stored.congr (h : Stored m ptr d S) (hlive : S ⊆ m'.live) (hcell : ∀ a ∈ S, m'.cell a = m.cell a) :
    Stored m' ptr d S := by
  induction h with
  | null => exact .null
  | @node a op val pl pr l r L R ha hc _ _ hd hn ihl ihr =>
    have hL : L ⊆ insert a (L ∪ R) := fun b hb => Finset.mem_insert_of_mem (Finset.mem_union_left _ hb)
    have hR : R ⊆ insert a (L ∪ R) := fun b hb => Finset.mem_insert_of_mem (Finset.mem_union_right _ hb)
    have ha' := Finset.mem_insert_self a (L ∪ R)
    refine .node (hlive ha') (by rw [hcell a ha', hc]) ?_ ?_ hd hn
    · exact ihl (hL.trans hlive) fun b hb => hcell b (hL hb)
    · exact ihr (hR.trans hlive) fun b hb => hcell b (hR hb)

theorem Stored.grown (h : Stored m ptr d S) (hg : Grown Block.IsDag m m' T) : Stored m' ptr d S :=
  h.congr (fun _ hb => hg.mem (h.subset hb)) fun b hb => hg.cell b (h.subset hb)

theorem Stored.set (h : Stored m ptr d S) (ha : a ∉ S) (x : Block V) : Stored (m.set a x) ptr d S := by
  refine h.congr h.subset fun b hb => Heap.cell_set_ne _ _ fun he => ha ?_
  rw [← he]
  exact hb

/-- A node that gets its children. -/
theorem stored_set {L R : Finset Nat} {op : DagOp} {val : V} (ha : a ∈ m.live) (hl : Stored m pl l L) (hr : Stored m pr r R)
    (hd : Disjoint L R) (hn : a ∉ L ∪ R) :
    Stored (m.set a (.dag ⟨op, val, pl, pr⟩)) (some a) (.node op val l r) (insert a (L ∪ R)) := by
  have hn' := not_or.mp fun h => hn (Finset.mem_union.mpr h)
  exact .node ha (Heap.cell_set_same _ _ _) (hl.set hn'.1 _) (hr.set hn'.2 _) hd hn

theorem Stored.exists_node (h : Stored m (some a) d S) : ∃ op v l r, d = .node op v l r := by
  cases h with
  | node _ _ _ _ _ _ => exact ⟨_, _, _, _, rfl⟩

/-! ## The descent against the one of `Parser.lean` -/

/-- No request was refused in between. -/
def Granted (A : Allocator) (m m' : Memory V) : Prop := m'.refused = m.refused ∨ ¬ A.Refuses

theorem Granted.later (h : Granted A m m'') (h1 : m.refused ≤ m'.refused) (h2 : m'.refused ≤ m''.refused) : Granted A m' m'' :=
  h.imp_left fun he => by omega

/-- A function of the descent, started with a tree that has the nodes `T`: it answers the tree
    of the other one, made of these nodes and of new ones; or NULL, as the other one does
    unless the allocator refuses a request meanwhile; or it stops, likewise. What it
    allocates are nodes, and it touches no others than these and `T`. -/
inductive Sim (A : Allocator) (m : Memory V) (T : Finset Nat) : Found V → Answer V → Prop
  | dag {a : Nat} {p : Parser V} {m' : Memory V} {d : ParserDag V} {S : Finset Nat} : Grown Block.IsDag m m' S →
      Stored m' (some a) d (T ∪ S) → Sim A m T (.ok (some a, p, m')) (.ok (d, p))
  | null {p : Parser V} {m' : Memory V} {S : Finset Nat} {q : Answer V} : Grown Block.IsDag m m' S →
      (Granted A m m' → q = .ok (.null, p)) → Sim A m T (.ok (none, p, m')) q
  | stop {e : Stop} {q : Answer V} : (¬ A.Refuses → q = .error e) → Sim A m T (.error (.stop e)) q

theorem outOfMemory_sim {p : Parser V} {q : Answer V} (hA : A.Refuses) (hg : Grown Block.IsDag m m' ∅)
    (hr : m'.refused = m.refused + 1) : Sim A m T (outOfMemory p m') q := by
  refine .null hg fun h => ?_
  rcases h with he | hno
  · omega
  · exact absurd hA hno

variable [Zero V]

theorem mkd_cases (A : Allocator) (op : DagOp) (m : Memory V) :
    (∃ m', mkd A op m = (none, m') ∧ A.Refuses ∧ Grown Block.IsDag m m' ∅ ∧ m'.refused = m.refused + 1) ∨
    ∃ a m', mkd A op m = (some a, m') ∧ Grown Block.IsDag m m' {a} ∧ m'.cell a = .dag ⟨op, 0, none, none⟩ ∧
      m'.refused = m.refused :=
  malloc_cases A Block.IsDag m ⟨_, rfl⟩

variable {f : Parser V → Memory V → Found V} {g : Parser V → Answer V}

theorem exprPrimary_sim (hf : ∀ p m, Sim A m ∅ (f p m) (g p)) (p : Parser V) (m : Memory V) :
    Sim A m ∅ (exprPrimary A f p m) (Jit.exprPrimary g p) := by
  unfold exprPrimary Jit.exprPrimary
  split
  · rcases mkd_cases A .val m with ⟨m', he, hA, hg, hr⟩ | ⟨a, m', he, hg, hc, -⟩
    · rw [he]
      exact outOfMemory_sim hA hg hr
    · rw [he]
      have ha := hg.mem_new (Finset.mem_singleton_self a)
      simp only [editDag_ok _ ha hc]
      refine .dag (hg.set (Finset.mem_singleton_self a) ⟨_, rfl⟩) ?_
      exact stored_set ha .null .null (Finset.disjoint_empty_left _) (Finset.notMem_empty _)
  split
  · have h := hf (forward p) m
    generalize f (forward p) m = x at h ⊢
    generalize g (forward p) = y at h ⊢
    cases h with
    | @dag a q m' d S hg hs =>
      obtain ⟨_, _, _, _, rfl⟩ := hs.exists_node
      simp only
      split
      · exact .dag hg hs
      · exact .null hg fun _ => rfl
    | null hg hq => exact .null hg fun he => by rw [hq he]
    | stop hq => exact .stop fun hA => by rw [hq hA]
  · exact .null (.refl _ _) fun _ => rfl

theorem exprUnary_sim (hf : ∀ p m, Sim A m ∅ (f p m) (g p)) (fuel : Nat) (p : Parser V) (m : Memory V) :
    Sim A m ∅ (exprUnary A f fuel p m) (Jit.exprUnary g fuel p) := by
  induction fuel generalizing p m with
  | zero => exact .stop fun _ => rfl
  | succ fuel ih =>
    unfold exprUnary Jit.exprUnary
    split
    · have h := ih (forward p) m
      generalize exprUnary A f fuel (forward p) m = x at h ⊢
      generalize Jit.exprUnary g fuel (forward p) = y at h ⊢
      cases h with
      | @dag a q m' d S hg hs =>
        obtain ⟨_, _, _, _, rfl⟩ := hs.exists_node
        exact .dag hg hs
      | null hg hq => exact .null hg fun he => by rw [hq he]
      | stop hq => exact .stop fun hA => by rw [hq hA]
    split
    · rcases mkd_cases A .neg m with ⟨m₁, he, hA, hg, hr⟩ | ⟨a, m₁, he, hg₁, hc, hr⟩
      · rw [he]
        exact outOfMemory_sim hA hg hr
      rw [he]
      have ha := hg₁.mem_new (Finset.mem_singleton_self a)
      have h := ih (forward p) m₁
      simp only
      generalize exprUnary A f fuel (forward p) m₁ = x at h ⊢
      generalize Jit.exprUnary g fuel (forward p) = y at h ⊢
      cases h with
      | @dag b q m₂ d S hg hs =>
        have hc₂ : m₂.cell a = _ := (hg.cell a ha).trans hc
        simp only [editDag_ok _ (hg.mem ha) hc₂]
        obtain ⟨_, _, _, _, rfl⟩ := hs.exists_node
        have ha' := Finset.mem_union_left S (Finset.mem_singleton_self a)
        refine .dag ((hg₁.trans hg).set ha' ⟨_, rfl⟩) ?_
        have hnot : a ∉ ∅ ∪ (∅ ∪ S) := by simpa using hg.not_mem ha
        have hnode : Stored (m₂.set a (.dag ⟨.neg, (0 : V), none, some b⟩)) (some a) (Jit.mkd .neg .null _) _ :=
          stored_set (hg.mem ha) .null hs (Finset.disjoint_empty_left _) hnot
        rw [Finset.empty_union, Finset.empty_union, Finset.insert_eq] at hnode
        rw [Finset.empty_union]
        exact hnode
      | @null q m₂ S y hg hq =>
        have hc₂ : m₂.cell a = _ := (hg.cell a ha).trans hc
        simp only [editDag_ok _ (hg.mem ha) hc₂]
        have ha' := Finset.mem_union_left S (Finset.mem_singleton_self a)
        refine .null ((hg₁.trans hg).set ha' ⟨_, rfl⟩) fun hno => ?_
        rw [hq (hno.later hg₁.refused hg.refused)]
      | stop hq => exact .stop fun hA => by rw [hq hA]
    · exact exprPrimary_sim hf p m

/-- The loop answers a DAG at a token that is none of its operators. -/
theorem binaryLoop_ends {opOf : LexerOp → Option DagOp} {tbl : List String} (fuel : Nat) {p q : Parser V} {x y z : ParserDag V}
    (h : Jit.binaryLoop opOf tbl g fuel p x y = .ok (z, q)) : z = .null ∨ opOf (next q).op = none := by
  induction fuel generalizing p x y with
  | zero => cases h
  | succ fuel ih =>
    unfold Jit.binaryLoop at h
    cases hop : opOf (next p).op with
    | none =>
      rw [hop] at h
      cases h
      exact Or.inr hop
    | some op =>
      simp only [hop] at h
      generalize g (forward p) = w at h
      cases w with
      | error e => cases h
      | ok w =>
        obtain ⟨d, q₁⟩ := w
        cases d with
        | null =>
          simp only at h
          split at h
          · cases h
            exact Or.inl rfl
          · cases h
        | node o v l r =>
          simp only at h
          generalize Jit.binaryLoop opOf tbl g fuel q₁ _ _ = w at h
          cases w with
          | error e => cases h
          | ok w =>
            obtain ⟨d, q₂⟩ := w
            cases d with
            | null =>
              cases h
              exact Or.inl rfl
            | node _ _ _ _ => exact ih h

/-- So the second iteration ends at once. -/
theorem binaryLoop_again {opOf : LexerOp → Option DagOp} {tbl : List String} (fuel : Nat) {p q : Parser V} {x y z : ParserDag V}
    (h : Jit.binaryLoop opOf tbl g fuel p x y = .ok (z, q)) (hz : z ≠ .null) :
    (∀ m left a, binaryLoop A opOf tbl f fuel q m left a = .ok (some a, q, m)) ∧
    ∀ w, Jit.binaryLoop opOf tbl g fuel q w z = .ok (z, q) := by
  have hnone := (binaryLoop_ends fuel h).resolve_left hz
  cases fuel with
  | zero => cases h
  | succ fuel => exact ⟨fun m left a => by rw [binaryLoop, hnone], fun w => by rw [Jit.binaryLoop, hnone]⟩

theorem binaryLoop_sim {opOf : LexerOp → Option DagOp} {tbl : List String} (ho : ∀ p m, Sim A m ∅ (f p m) (g p)) (fuel : Nat)
    (p : Parser V) {m : Memory V} {left : Nat} (hl : Stored m (some left) l T) :
    Sim A m T (binaryLoop A opOf tbl f fuel p m left left) (Jit.binaryLoop opOf tbl g fuel p l l) := by
  induction fuel generalizing p m left l T with
  | zero => exact .stop fun _ => rfl
  | succ fuel ih =>
    unfold binaryLoop Jit.binaryLoop
    cases hop : opOf (next p).op with
    | none =>
      refine .dag (.refl _ _) ?_
      rw [Finset.union_empty]
      exact hl
    | some op =>
      simp only
      rcases mkd_cases A op m with ⟨m', he, hA, hg, hr⟩ | ⟨a, m₁, he, hg₁, hc₁, -⟩
      · rw [he]
        exact outOfMemory_sim hA hg hr
      have ha₁ := hg₁.mem_new (Finset.mem_singleton_self a)
      have haT : a ∉ T := fun h => hg₁.not_mem (hl.subset h) (Finset.mem_singleton_self a)
      simp only [he, editDag_ok _ ha₁ hc₁]
      -- the new node with its left child
      have hg₂ := hg₁.set (Finset.mem_singleton_self a) (show Block.IsDag (.dag ⟨op, 0, some left, none⟩) from ⟨_, rfl⟩)
      have hc₂ := Heap.cell_set_same m₁ a (.dag ⟨op, (0 : V), some left, none⟩)
      generalize m₁.set a (.dag ⟨op, (0 : V), some left, none⟩) = m₂ at hg₂ hc₂ ⊢
      have ha₂ := hg₂.mem_new (Finset.mem_singleton_self a)
      have h := ho (forward p) m₂
      generalize f (forward p) m₂ = x at h ⊢
      generalize g (forward p) = y at h ⊢
      cases h with
      | @dag b q m₃ d S hg₃ hs =>
        have hc₃ : m₃.cell a = _ := (hg₃.cell a ha₂).trans hc₂
        have ha := Finset.mem_union_left S (Finset.mem_singleton_self a)
        have hg := hg₂.trans hg₃
        simp only [editDag_ok _ (hg₃.mem ha₂) hc₃]
        obtain ⟨_, _, _, _, rfl⟩ := hs.exists_node
        -- the node with both children
        rw [Finset.empty_union] at hs
        have hTS : Disjoint T S := Finset.disjoint_left.mpr fun x hx => hg₃.not_mem (hg₂.mem (hl.subset hx))
        have haTS : a ∉ T ∪ S := fun h => (Finset.mem_union.mp h).elim haT (hg₃.not_mem ha₂)
        have hnode : Stored (m₃.set a (.dag ⟨op, (0 : V), some left, some b⟩)) (some a) (Jit.mkd op l _) (insert a (T ∪ S)) :=
          stored_set (hg₃.mem ha₂) (hl.grown hg) hs hTS haTS
        have hg₄ := hg.set ha (show Block.IsDag (.dag ⟨op, (0 : V), some left, some b⟩) from ⟨_, rfl⟩)
        generalize m₃.set a (.dag ⟨op, (0 : V), some left, some b⟩) = m₄ at hnode hg₄ ⊢
        have h := ih q hnode
        simp only
        generalize binaryLoop A opOf tbl f fuel q m₄ a a = x at h ⊢
        generalize hy : Jit.binaryLoop opOf tbl g fuel q _ _ = y at h ⊢
        cases h with
        | @dag a' q₁ m₅ d' S' hg₅ hs₅ =>
          obtain ⟨o, v, l', r', rfl⟩ := hs₅.exists_node
          obtain ⟨h1, h2⟩ := @binaryLoop_again _ A _ f _ _ _ fuel _ _ _ _ _ hy (by simp)
          simp only [h1, h2]
          refine .dag (hg₄.trans hg₅) ?_
          have hset : T ∪ ({a} ∪ S ∪ S') = insert a (T ∪ S) ∪ S' := by
            ext x
            simp only [Finset.mem_union, Finset.mem_insert, Finset.mem_singleton]
            grind
          rw [hset]
          exact hs₅
        | null hg₅ hq =>
          refine .null (hg₄.trans hg₅) fun hno => ?_
          rw [hq (hno.later hg₄.refused hg₅.refused)]
        | stop hq => exact .stop fun hA => by rw [hq hA]
      | @null q m₃ S y hg₃ hq =>
        have hc₃ : m₃.cell a = _ := (hg₃.cell a ha₂).trans hc₂
        have ha := Finset.mem_union_left S (Finset.mem_singleton_self a)
        have hg := (hg₂.trans hg₃).set ha (show Block.IsDag (.dag ⟨op, (0 : V), some left, none⟩) from ⟨_, rfl⟩)
        simp only [editDag_ok _ (hg₃.mem ha₂) hc₃]
        rw [readDag_ok (show a ∈ (m₃.set a _).live from hg₃.mem ha₂) (Heap.cell_set_same _ _ _)]
        simp only
        cases htbl : tbl[op.toNat - DagOp.mul.toNat]? with
        | none =>
          refine .stop fun hA => ?_
          rw [hq (Or.inr hA)]
        | some name =>
          refine .null hg fun hno => ?_
          rw [hq (hno.later hg₂.refused hg₃.refused)]
      | stop hq => exact .stop fun hA => by rw [hq hA]

omit [Zero V] in
/-- What goes on with a tree that has just been made. -/
theorem Sim.after {x : Found V} {y : Answer V} (hg : Grown Block.IsDag m m' S) (h : Sim A m' S x y) : Sim A m ∅ x y := by
  cases h with
  | dag hg' hs =>
    refine .dag (hg.trans hg') ?_
    rw [Finset.empty_union]
    exact hs
  | null hg' hq => exact .null (hg.trans hg') fun hno => hq (hno.later hg.refused hg'.refused)
  | stop hq => exact .stop hq

theorem exprMultiplicative_sim (hf : ∀ p m, Sim A m ∅ (f p m) (g p)) (fuel : Nat) (p : Parser V) (m : Memory V) :
    Sim A m ∅ (exprMultiplicative A f fuel p m) (Jit.exprMultiplicative g fuel p) := by
  have ho := exprUnary_sim hf fuel
  have h := ho p m
  unfold exprMultiplicative Jit.exprMultiplicative
  generalize exprUnary A f fuel p m = x at h ⊢
  generalize Jit.exprUnary g fuel p = y at h ⊢
  cases h with
  | @dag a q m' d S hg hs =>
    obtain ⟨_, _, _, _, rfl⟩ := hs.exists_node
    rw [Finset.empty_union] at hs
    exact .after hg (binaryLoop_sim ho fuel q hs)
  | null hg hq => exact .null hg fun hno => by rw [hq hno]
  | stop hq => exact .stop fun hA => by rw [hq hA]

theorem exprAdditive_sim (hf : ∀ p m, Sim A m ∅ (f p m) (g p)) (fuel : Nat) (p : Parser V) (m : Memory V) :
    Sim A m ∅ (exprAdditive A f fuel p m) (Jit.exprAdditive g fuel p) := by
  have ho := exprMultiplicative_sim hf fuel
  have h := ho p m
  unfold exprAdditive Jit.exprAdditive
  generalize exprMultiplicative A f fuel p m = x at h ⊢
  generalize Jit.exprMultiplicative g fuel p = y at h ⊢
  cases h with
  | @dag a q m' d S hg hs =>
    obtain ⟨_, _, _, _, rfl⟩ := hs.exists_node
    rw [Finset.empty_union] at hs
    exact .after hg (binaryLoop_sim ho fuel q hs)
  | null hg hq => exact .null hg fun hno => by rw [hq hno]
  | stop hq => exact .stop fun hA => by rw [hq hA]

theorem expr_sim (fuel : Nat) (p : Parser V) (m : Memory V) : Sim A m ∅ (expr A fuel p m) (Jit.expr fuel p) := by
  induction fuel generalizing p m with
  | zero => exact .stop fun _ => rfl
  | succ fuel ih => exact exprAdditive_sim ih (fuel + 1) p m

theorem top_sim (fuel : Nat) (p : Parser V) (m : Memory V) : Sim A m ∅ (top A fuel p m) (Jit.top fuel p) := by
  have h := expr_sim (A := A) fuel p m
  unfold top Jit.top
  generalize expr A fuel p m = x at h ⊢
  generalize Jit.expr fuel p = y at h ⊢
  cases h with
  | @dag a q m' d S hg hs =>
    obtain ⟨_, _, _, _, rfl⟩ := hs.exists_node
    simp only
    split
    · exact .dag hg hs
    · exact .null hg fun _ => rfl
  | null hg hq => exact .null hg fun hno => by rw [hq hno]
  | stop hq => exact .stop fun hA => by rw [hq hA]

/-! ## Freeing a tree -/

theorem card_children {L R : Finset Nat} (hn : a ∉ L ∪ R) {k : Nat} (h : (insert a (L ∪ R)).card < k + 1) :
    L.card < k ∧ R.card < k := by
  rw [Finset.card_insert_of_notMem hn] at h
  have hL := Finset.card_le_card (@Finset.subset_union_left _ _ L R)
  have hR := Finset.card_le_card (@Finset.subset_union_right _ _ L R)
  omega

omit [Zero V] in
theorem freeDag_ok (h : Stored m ptr d S) {fuel : Nat} (hf : S.card < fuel) :
    ∃ m', freeDag fuel m ptr = .ok m' ∧ m'.live = m.live \ S ∧ m'.cell = m.cell ∧ m'.refused = m.refused := by
  induction d generalizing m ptr S fuel with
  | null =>
    cases h
    cases fuel with
    | zero => exact absurd hf (Nat.not_lt_zero _)
    | succ fuel => exact ⟨m, rfl, Finset.sdiff_empty.symm, rfl, rfl⟩
  | node op val l r ihl ihr =>
    cases h with
    | @node a _ _ pl pr _ _ L R ha hc hl hr hd hn =>
      cases fuel with
      | zero => exact absurd hf (Nat.not_lt_zero _)
      | succ fuel =>
        obtain ⟨hL, hR⟩ := card_children hn hf
        obtain ⟨haL, haR⟩ := not_or.mp fun h => hn (Finset.mem_union.mpr h)
        obtain ⟨m₁, h₁, hlive₁, hcell₁, hr₁⟩ := ihl hl hL
        have ha₁ : a ∈ m₁.live := by
          rw [hlive₁]
          exact Finset.mem_sdiff.mpr ⟨ha, haL⟩
        have hr' : Stored m₁ pr r R := by
          refine hr.congr (fun b hb => ?_) fun b _ => by rw [hcell₁]
          rw [hlive₁]
          exact Finset.mem_sdiff.mpr ⟨hr.subset hb, fun hbL => Finset.disjoint_left.mp hd hbL hb⟩
        obtain ⟨m₂, h₂, hlive₂, hcell₂, hr₂⟩ := ihr hr' hR
        have ha₂ : a ∈ m₂.live := by
          rw [hlive₂]
          exact Finset.mem_sdiff.mpr ⟨ha₁, haR⟩
        refine ⟨m₂.free a, ?_, ?_, by rw [Heap.cell_free, hcell₂, hcell₁], by rw [Heap.refused_free, hr₂, hr₁]⟩
        · rw [freeDag, readDag_ok ha hc]
          simp only [h₁]
          rw [readDag_ok ha₁ (by rw [hcell₁, hc])]
          simp only [h₂]
          exact free_ok ha₂
        · rw [Heap.live_free, hlive₂, hlive₁]
          ext b
          simp only [Finset.mem_erase, Finset.mem_sdiff, Finset.mem_insert, Finset.mem_union]
          grind

/-- What the code generator prints for a tree in the heap. -/
theorem genFuncBodyFromDag_ok {m : Memory ℚ} {d : ParserDag ℚ} (h : Stored m ptr d S) {fuel : Nat} (hf : S.card < fuel)
    (varId : Int) : genFuncBodyFromDag fuel m varId ptr = .ok (Jit.genFuncBodyFromDag varId d) := by
  induction h generalizing fuel varId with
  | null =>
    cases fuel with
    | zero => exact absurd hf (Nat.not_lt_zero _)
    | succ fuel => rfl
  | node ha hc _ _ _ hn ihl ihr =>
    cases fuel with
    | zero => exact absurd hf (Nat.not_lt_zero _)
    | succ fuel =>
      obtain ⟨hL, hR⟩ := card_children hn hf
      rw [genFuncBodyFromDag, readDag_ok ha hc, Jit.genFuncBodyFromDag]
      simp only [ok_bind, ihl hL, ihr hR]
      generalize lineOf _ _ _ _ _ = line
      cases line with
      | none => rfl
      | some line => rfl

/-! ## The lexer -/

def anyBlock : Block V → Prop := fun _ => True

/-- What a function of the lexer leaves, from the memory `m`: the token array, and the answer of
    the one of `Lexer.lean` unless the allocator refused a request. -/
structure Lexes (A : Allocator) (m : Memory V) (x : Except Stop (Option (Lexer V))) (r : Lexed V (Lexer V)) : Prop where
  grown : Grown anyBlock m r.memory (r.tokens.elim ∅ singleton)
  some_eq : ∀ lexer, r.ret = some lexer → x = .ok (some lexer)
  none_eq : r.ret = none → Granted A m r.memory → x = .ok none ∧ r.err = ["lexer"]

omit [Zero V] in
theorem mktoken_spec {lexer : Lexer V} (h : lexer.Ok) {op : LexerOp} (hop : op ≠ .sentinel) (val : V) {tokens : Option Nat}
    (hg : Grown anyBlock m m' (tokens.elim ∅ singleton)) :
    ∃ r, mktoken A lexer op val tokens m' = .ok r ∧ Grown anyBlock m r.memory (r.tokens.elim ∅ singleton) ∧
      (∀ l, r.ret = some l → Jit.mktoken lexer op val = .ok l ∧ l.Ok) ∧ (r.ret = none → ¬ Granted A m r.memory) := by
  obtain ⟨lexer', hm, hok, -⟩ := mktoken_in_room h op hop val
  have hmade : ∀ l, some lexer' = some l → (Except.ok lexer' : Except Stop (Lexer V)) = .ok l ∧ l.Ok := by
    intro l he
    cases he
    exact ⟨rfl, hok⟩
  unfold mktoken
  split
  · have hmem : ∀ a ∈ tokens, a ∈ tokens.elim (∅ : Finset Nat) singleton := by
      intro a ha
      rw [Option.mem_def.mp ha]
      exact Finset.mem_singleton_self a
    have hall : (tokens.all fun a => decide (a ∈ m'.live)) = true := by
      cases tokens with
      | none => rfl
      | some t => exact decide_eq_true (hg.mem_new (hmem t rfl))
    rw [if_pos hall]
    rcases realloc_cases A (show anyBlock .tokens from trivial) hg hmem with ⟨m₁, he, hA, hg₁, hr⟩ | ⟨a, m₁, he, hg₁, hr⟩
    · rw [he]
      refine ⟨_, rfl, hg₁, fun l he => (by cases he), fun _ hno => ?_⟩
      rcases hno with he | hno
      · have := hg.refused
        simp only at he
        omega
      · exact hno hA
    · rw [he, hm]
      refine ⟨_, rfl, ?_, hmade, fun he => (by cases he)⟩
      cases tokens with
      | none => simpa using hg₁
      | some t => simpa using hg₁
  · rw [hm]
    exact ⟨_, rfl, hg, hmade, fun he => (by cases he)⟩

theorem tokenize_spec (strtod : List Char → V × Nat) {lexer : Lexer V} (h : lexer.Ok) {tokens : Option Nat} (s : List Char)
    (hg : Grown anyBlock m m' (tokens.elim ∅ singleton)) :
    ∃ r, tokenize A strtod lexer tokens m' s = .ok r ∧ Lexes A m (Jit.tokenize strtod lexer s) r := by
  induction hn : s.length using Nat.strong_induction_on generalizing s lexer tokens m' with
  | h n ih =>
    cases s with
    | nil =>
      refine ⟨_, by rw [tokenize], hg, fun l he => ?_, fun he => (by cases he)⟩
      cases he
      rw [Jit.tokenize]
    | cons c cs =>
      rw [tokenize, Jit.tokenize]
      cases hop : operator c with
      | some op =>
        obtain ⟨⟨ret, err, tokens', m₁⟩, he, hg₁, hsome, hnone⟩ := mktoken_spec (A := A) h (operator_ne hop) 0 hg
        simp only [he]
        cases ret with
        | none => exact ⟨_, rfl, hg₁, fun l he => (by cases he), fun _ hno => absurd hno (hnone rfl)⟩
        | some lexer' =>
          obtain ⟨hm, hok⟩ := hsome lexer' rfl
          simp only [hm]
          exact ih cs.length (by rw [← hn]; exact Nat.lt_succ_self _) hok cs hg₁ rfl
      | none =>
        simp only
        split
        · exact ih cs.length (by rw [← hn]; exact Nat.lt_succ_self _) h cs hg rfl
        · obtain ⟨⟨ret, err, tokens', m₁⟩, he, hg₁, hsome, hnone⟩ :=
            mktoken_spec (A := A) h (show LexerOp.val ≠ .sentinel by decide) (strtod (c :: cs)).1 hg
          simp only [he]
          cases ret with
          | none => exact ⟨_, rfl, hg₁, fun l he => (by cases he), fun _ hno => absurd hno (hnone rfl)⟩
          | some lexer' =>
            obtain ⟨hm, hok⟩ := hsome lexer' rfl
            simp only [hm]
            split
            · exact ⟨_, rfl, hg₁, fun l he => (by cases he), fun _ _ => ⟨rfl, rfl⟩⟩
            · have hlt : (cs.drop ((strtod (c :: cs)).2 - 1)).length < n := by
                rw [← hn, List.length_drop, List.length_cons]
                omega
              exact ih _ hlt hok _ hg₁ rfl

/-- The blocks of a lexer: its own and its token array. -/
def lexerBlocks (block : Nat) (tokens : Option Nat) : Finset Nat := insert block (tokens.elim ∅ singleton)

omit [Zero V] in
theorem lexerClose_ok {P : Block V → Prop} {block : Nat} {tokens : Option Nat} (hg : Grown P m m' S)
    (hsub : lexerBlocks block tokens ⊆ S) (hne : block ∉ tokens.elim (∅ : Finset Nat) singleton) :
    ∃ m'', lexerClose block tokens m' = .ok m'' ∧ Grown P m m'' (S \ lexerBlocks block tokens) ∧ m''.cell = m'.cell ∧
      m''.refused = m'.refused := by
  have hb := hsub (Finset.mem_insert_self block _)
  cases tokens with
  | none =>
    refine ⟨m'.free block, ?_, ?_, rfl, rfl⟩
    · exact free_ok (hg.mem_new hb)
    · have hset : S \ lexerBlocks block none = S.erase block := by simp [lexerBlocks, Finset.sdiff_singleton_eq_erase]
      rw [hset]
      exact hg.free hb
  | some t =>
    have ht : t ∈ S := hsub (Finset.mem_insert_of_mem (Finset.mem_singleton_self t))
    have hbt : block ∈ S.erase t := Finset.mem_erase.mpr ⟨fun he => hne (Finset.mem_singleton.mpr he), hb⟩
    have hg' := hg.free ht
    refine ⟨(m'.free t).free block, ?_, ?_, rfl, rfl⟩
    · rw [lexerClose, free_ok (hg.mem_new ht), ok_bind]
      exact free_ok (hg'.mem_new hbt)
    · have hset : S \ lexerBlocks block (some t) = (S.erase t).erase block := by
        ext x
        simp [lexerBlocks]
        grind
      rw [hset]
      exact hg'.free hbt

theorem lexerOpen_spec (A : Allocator) (strtod : List Char → V × Nat) {s : List Char} (hs : s.length ≠ 0) (m : Memory V) :
    ∃ r, lexerOpen A strtod s m = .ok r ∧
      (∀ block lexer, r.ret = some (block, lexer) → Jit.lexerOpen strtod s = .ok (some lexer) ∧
        block ∉ r.tokens.elim (∅ : Finset Nat) singleton ∧ Grown anyBlock m r.memory (lexerBlocks block r.tokens)) ∧
      (r.ret = none → Grown anyBlock m r.memory ∅ ∧
        (Granted A m r.memory → Jit.lexerOpen strtod s = .ok none ∧ r.err = ["lexer", "^"])) := by
  rw [lexerOpen, Jit.lexerOpen, if_neg hs, if_neg hs]
  rcases malloc_cases A anyBlock m (show anyBlock .lexer from trivial) with ⟨m₁, he, hA, hg, hr⟩ | ⟨block, m₁, he, hg, -, hr⟩
  · simp only [he]
    refine ⟨_, rfl, fun b l he => (by cases he), fun _ => ⟨hg, fun hno => ?_⟩⟩
    rcases hno with he | hno
    · simp only at he
      omega
    · exact absurd hA hno
  simp only [he]
  obtain ⟨⟨ret, err, tokens, m₂⟩, ht, hg₂, hsome, hnone⟩ :=
    tokenize_spec (A := A) strtod ok_empty s (show Grown anyBlock m₁ m₁ ((none : Option Nat).elim ∅ singleton) from .refl _ _)
  have hall : Grown anyBlock m m₂ (lexerBlocks block tokens) := hg.trans hg₂
  have hne : block ∉ tokens.elim (∅ : Finset Nat) singleton :=
    hg₂.not_mem (hg.mem_new (Finset.mem_singleton_self block))
  simp only [ht]
  cases ret with
  | none =>
    obtain ⟨m₃, hc, hg₃, -, hr₃⟩ := lexerClose_ok hall (Finset.Subset.refl _) hne
    simp only [hc]
    rw [Finset.sdiff_self] at hg₃
    refine ⟨_, rfl, fun b l he => (by cases he), fun _ => ⟨hg₃, fun hno => ?_⟩⟩
    have hgr : Granted A m₁ m₂ := hno.imp_left fun he => by simp only at he; omega
    obtain ⟨h1, h2⟩ := hnone rfl hgr
    exact ⟨h1, congrArg (· ++ ["^"]) h2⟩
  | some lexer =>
    refine ⟨_, rfl, fun b l he => ?_, fun he => (by cases he)⟩
    cases he
    exact ⟨hsome lexer rfl, hne, hall⟩

/-! ## A parser -/

omit [Zero V] in
theorem parserFailed_ok {parser : Nat} (err : List String) (h : parser ∈ m.live) :
    parserFailed parser err m = .ok ⟨none, err ++ ["^"], m.free parser⟩ := by
  have hclose : parserClose m parser none = .ok (m.free parser) := free_ok h
  rw [parserFailed, hclose]
  rfl

/-- Why `parser_open` stops: where the one of `Parser.lean` stops, unless the allocator
    refuses requests. -/
def Stops (A : Allocator) (x : Except Stop (ParserDag V × List String)) (e : Fault) : Prop :=
  ∃ e', e = .stop e' ∧ (¬ A.Refuses → x = .error e')

/-- What `parser_open` leaves: a tree and the block of the parser, or nodes that nothing
    points to. -/
structure Opens (A : Allocator) (m : Memory V) (x : Except Stop (ParserDag V × List String)) (o : Opened V) : Prop where
  opened : ∀ parser dag, o.ret = some (parser, dag) → ∃ d S, x = .ok (d, o.err) ∧ Stored o.memory (some dag) d S ∧
    parser ∉ S ∧ Grown anyBlock m o.memory (insert parser S)
  failed : o.ret = none → ∃ S, Grown Block.IsDag m o.memory S ∧ (Granted A m o.memory → x = .ok (.null, o.err))

/-- The blocks of a parser that is being opened, without those of its lexer. -/
theorem sdiff_lexerBlocks {parser block : Nat} {tokens : Option Nat} (hp : parser ∉ lexerBlocks block tokens)
    (hS : Disjoint ({parser} ∪ lexerBlocks block tokens) S) :
    ({parser} ∪ lexerBlocks block tokens ∪ S) \ lexerBlocks block tokens = insert parser S := by
  rw [Finset.disjoint_left] at hS
  ext x
  have hx := @hS x
  simp only [Finset.mem_sdiff, Finset.mem_union, Finset.mem_insert, Finset.mem_singleton] at hx ⊢
  grind

omit [Zero V] in
/-- `lexer_close` while a parser is opened. -/
theorem close_ok {parser block : Nat} {tokens : Option Nat} (hg : Grown anyBlock m m' ({parser} ∪ lexerBlocks block tokens ∪ S))
    (hne : block ∉ tokens.elim (∅ : Finset Nat) singleton) (hp : parser ∉ lexerBlocks block tokens)
    (hS : Disjoint ({parser} ∪ lexerBlocks block tokens) S) :
    ∃ m'', lexerClose block tokens m' = .ok m'' ∧ Grown anyBlock m m'' (insert parser S) ∧ m''.cell = m'.cell ∧
      m''.refused = m'.refused := by
  have hsub : lexerBlocks block tokens ⊆ {parser} ∪ lexerBlocks block tokens ∪ S :=
    Finset.subset_union_right.trans Finset.subset_union_left
  obtain ⟨m'', hc, hg', hcell, hr⟩ := lexerClose_ok hg hsub hne
  rw [sdiff_lexerBlocks hp hS] at hg'
  exact ⟨m'', hc, hg', hcell, hr⟩

omit [Zero V] in
/-- And `parser_close` when it is not. -/
theorem failed_ok {parser : Nat} (err : List String) (hg : Grown anyBlock m m' (insert parser S)) (hp : parser ∉ S) :
    parserFailed parser err m' = .ok ⟨none, err ++ ["^"], m'.free parser⟩ ∧ Grown anyBlock m (m'.free parser) S := by
  have hmem := Finset.mem_insert_self parser S
  refine ⟨parserFailed_ok err (hg.mem_new hmem), ?_⟩
  have hfree := hg.free hmem
  rwa [Finset.erase_insert hp] at hfree

theorem parserOpen_spec (A : Allocator) (strtod : List Char → V × Nat) (s : List Char) (m : Memory V) :
    Outcome (Stops A (Jit.parserOpen strtod s)) (parserOpen A strtod s m) (Opens A m (Jit.parserOpen strtod s)) := by
  rw [parserOpen]
  by_cases hs : s.length = 0
  · rw [if_pos hs]
    refine .error ⟨.assert, rfl, fun _ => ?_⟩
    rw [Jit.parserOpen, Jit.lexerOpen, if_pos hs]
  rw [if_neg hs]
  rcases malloc_cases A anyBlock m (show anyBlock .parser from trivial) with ⟨m₁, he, hA, hg, hr⟩ | ⟨parser, m₁, he, hg₁, -, hr₁⟩
  · simp only [he]
    refine .ok ⟨fun _ _ he => (by cases he), fun _ => ⟨∅, hg.imp fun _ h => absurd h (Finset.notMem_empty _), fun hno => ?_⟩⟩
    rcases hno with he | hno
    · simp only at he
      omega
    · exact absurd hA hno
  simp only [he]
  have hp₁ := hg₁.mem_new (Finset.mem_singleton_self parser)
  obtain ⟨⟨ret, err, tokens, m₂⟩, hl, hsome, hnone⟩ := lexerOpen_spec A strtod hs m₁
  simp only [hl, ok_bind]
  cases ret with
  | none =>
    obtain ⟨hg₂, hlex⟩ := hnone rfl
    have hall := hg₁.trans hg₂
    simp only [parserFailed_ok err (hg₂.mem hp₁)]
    have hfree := hall.free (Finset.mem_union_left ∅ (Finset.mem_singleton_self parser))
    rw [Finset.union_empty, Finset.erase_singleton] at hfree
    refine .ok ⟨fun _ _ he => (by cases he), fun _ => ⟨∅, hfree.imp fun _ h => absurd h (Finset.notMem_empty _), fun hno => ?_⟩⟩
    obtain ⟨h1, h2⟩ := hlex (hno.later hg₁.refused hg₂.refused)
    rw [Jit.parserOpen, h1]
    exact congrArg (fun err => Except.ok (ParserDag.null, err ++ ["^"])) h2.symm
  | some l =>
    obtain ⟨block, lexer⟩ := l
    obtain ⟨hlex, hne, hg₂⟩ := hsome block lexer rfl
    have hg₂' : Grown anyBlock m₁ m₂ (lexerBlocks block tokens) := hg₂
    have hall := hg₁.trans hg₂'
    have hpn := hg₂'.not_mem hp₁
    rw [Jit.parserOpen, hlex]
    simp only
    by_cases hsize : lexer.size = 0
    · rw [if_pos hsize, if_pos hsize]
      rw [← Finset.union_empty ({parser} ∪ lexerBlocks block tokens)] at hall
      obtain ⟨m₃, hc, hg₃, -, -⟩ := close_ok hall hne hpn (Finset.disjoint_empty_right _)
      obtain ⟨hf, hg₄⟩ := failed_ok [] hg₃ (Finset.notMem_empty _)
      simp only [hc, ok_bind, hf]
      exact .ok ⟨fun _ _ he => (by cases he), fun _ => ⟨∅, hg₄.imp fun _ h => absurd h (Finset.notMem_empty _), fun _ => rfl⟩⟩
    · rw [if_neg hsize, if_neg hsize]
      have h := top_sim (A := A) (lexer.size + 1) ⟨false, 0, lexer.tokens, []⟩ m₂
      generalize top A (lexer.size + 1) ⟨false, 0, lexer.tokens, []⟩ m₂ = x at h ⊢
      generalize Jit.top (lexer.size + 1) ⟨false, 0, lexer.tokens, []⟩ = y at h ⊢
      cases h with
      | @dag dag q m₃ d S hg₃ hst =>
        rw [Finset.empty_union] at hst
        have hS : Disjoint ({parser} ∪ lexerBlocks block tokens) S :=
          Finset.disjoint_left.mpr fun x hx => hg₃.not_mem (hall.mem_new hx)
        obtain ⟨m₄, hc, hg₄, hcell, -⟩ := close_ok (hall.trans (hg₃.imp fun _ _ => trivial)) hne hpn hS
        have hpS : parser ∉ S := hg₃.not_mem (hg₂'.mem hp₁)
        have hst' := hst.congr (fun _ hb => hg₄.mem_new (Finset.mem_insert_of_mem hb)) fun b _ => by rw [hcell]
        obtain ⟨_, _, _, _, rfl⟩ := hst.exists_node
        simp only [ok_bind, hc]
        refine .ok ⟨fun _ _ he => ?_, fun he => (by cases he)⟩
        cases he
        exact ⟨_, S, rfl, hst', hpS, hg₄⟩
      | @null q m₃ S y hg₃ hq =>
        have hS : Disjoint ({parser} ∪ lexerBlocks block tokens) S :=
          Finset.disjoint_left.mpr fun x hx => hg₃.not_mem (hall.mem_new hx)
        obtain ⟨m₄, hc, hg₄, hcell, hr₄⟩ := close_ok (hall.trans (hg₃.imp fun _ _ => trivial)) hne hpn hS
        obtain ⟨hf, hg₅⟩ := failed_ok q.stderr hg₄ (hg₃.not_mem (hg₂'.mem hp₁))
        simp only [ok_bind, hc, hf]
        refine .ok ⟨fun _ _ he => (by cases he), fun _ => ⟨S, hg₅.imp fun b hb => ?_, fun hno => ?_⟩⟩
        · rw [Heap.cell_free, hcell]
          exact hg₃.content b hb
        · have hgr : Granted A m₂ m₃ := by
            have hle := hall.refused
            have hle' := hg₃.refused
            exact hno.imp_left fun he => by simp only [Heap.refused_free, hr₄] at he; omega
          rw [hq hgr]
      | stop hq => exact .error ⟨_, rfl, fun hA => by rw [hq hA]⟩

omit [Zero V] in
theorem parserClose_ok {parser dag : Nat} (hst : Stored m' (some dag) d S) (hp : parser ∉ S)
    (hg : Grown anyBlock m m' (insert parser S)) :
    ∃ m'', parserClose m' parser (some dag) = .ok m'' ∧ m''.live = m.live ∧ ∀ a ∈ m.live, m''.cell a = m.cell a := by
  have hcard := Finset.card_le_card hst.subset
  obtain ⟨m₁, hf, hlive, hcell, -⟩ := freeDag_ok hst (Nat.lt_succ_of_le hcard)
  have hp₁ : parser ∈ m₁.live := by
    rw [hlive]
    exact Finset.mem_sdiff.mpr ⟨hg.mem_new (Finset.mem_insert_self parser S), hp⟩
  refine ⟨m₁.free parser, ?_, ?_, fun a ha => ?_⟩
  · rw [parserClose, hf]
    exact free_ok hp₁
  · have hapart := Finset.disjoint_left.mp hg.apart
    rw [Heap.live_free, hlive, hg.live]
    ext x
    have hx := @hapart x
    simp only [Finset.mem_erase, Finset.mem_sdiff, Finset.mem_union, Finset.mem_insert] at hx ⊢
    grind
  · rw [Heap.cell_free, hcell]
    exact hg.cell a ha

/-- For every text, every `strtod` and every allocator, from any memory: `main` touches and
    frees only what is allocated; the C it writes is the one for the text's DAG, and then all
    that was allocated is free again. When the parser answers NULL, as it does for a text
    without a DAG and when a request is refused, what is left allocated are nodes. -/
theorem compile_owns_its_memory (A : Allocator) (strtod : List Char → ℚ × Nat) (varId : Int) (s : List Char) (m : Memory ℚ) :
    Outcome (Stops A (Jit.parserOpen strtod s)) (compile A strtod varId s m) fun r =>
      (∀ program, r.1 = some program → (∃ d, Jit.parserOpen strtod s = .ok (d, r.2.1) ∧ d ≠ .null ∧ program = generate varId d) ∧
        r.2.2.live = m.live ∧ ∀ a ∈ m.live, r.2.2.cell a = m.cell a) ∧
      (r.1 = none → ∃ S, Grown Block.IsDag m r.2.2 S ∧
        (Granted A m r.2.2 → Jit.parserOpen strtod s = .ok (.null, r.2.1))) := by
  refine (parserOpen_spec A strtod s m).bind fun o ho => ?_
  cases hret : o.ret with
  | none =>
    obtain ⟨S, hg, hx⟩ := ho.failed hret
    exact .ok ⟨fun _ he => (by cases he), fun _ => ⟨S, hg, hx⟩⟩
  | some r =>
    obtain ⟨parser, dag⟩ := r
    obtain ⟨d, S, hx, hst, hp, hg⟩ := ho.opened parser dag hret
    have hcard := Finset.card_le_card hst.subset
    obtain ⟨m₁, hc, hlive, hcell⟩ := parserClose_ok hst hp hg
    obtain ⟨_, _, _, _, rfl⟩ := hst.exists_node
    simp only [genFuncBodyFromDag_ok hst (Nat.lt_succ_of_le hcard), ok_bind, hc]
    refine .ok ⟨fun program he => ?_, fun he => (by cases he)⟩
    cases he
    exact ⟨⟨_, hx, fun h => (by cases h), rfl⟩, hlive, hcell⟩

theorem counting_fresh {n : Nat} {live : Finset Nat} {a : Nat} (h : (if n ∈ live then none else some n) = some a) :
    a ∉ live := by
  split at h
  · cases h
  · cases h
    assumption

/-- An allocator that numbers its blocks. -/
def counting : Allocator := ⟨fun n live => if n ∈ live then none else some n, counting_fresh⟩

def noBlocks : Memory ℚ := ⟨∅, fun _ => .parser, 0, 0⟩

/-- Every character but the parser's own is the number 1. -/
def strtodOne : List Char → ℚ × Nat := fun _ => (1, 1)

theorem tokenize_one_times (cell : Nat → Block ℚ) :
    tokenize counting strtodOne ⟨0, [], 0⟩ none ⟨{1, 0}, cell, 2, 0⟩ ['1', '*'] =
      .ok ⟨some ⟨2, [⟨.val, 1⟩, ⟨.mul, 0⟩], 100⟩, [], some 2, ⟨{2, 1, 0}, Function.update cell 2 .tokens, 3, 0⟩⟩ := by
  simp [tokenize, operator, isspace, mktoken, Jit.mktoken, counting, Heap.realloc, strtodOne]

theorem lexerOpen_one_times :
    lexerOpen counting strtodOne ['1', '*'] ⟨{0}, Function.update noBlocks.cell 0 .parser, 1, 0⟩ =
      .ok ⟨some (1, ⟨2, [⟨.val, 1⟩, ⟨.mul, 0⟩], 100⟩), [], some 2,
        ⟨{2, 1, 0}, Function.update (Function.update (Function.update noBlocks.cell 0 .parser) 1 .lexer) 2 .tokens, 3, 0⟩⟩ := by
  have hmalloc : Heap.malloc counting (⟨{0}, Function.update noBlocks.cell 0 .parser, 1, 0⟩ : Memory ℚ) .lexer =
      (some 1, ⟨{1, 0}, Function.update (Function.update noBlocks.cell 0 .parser) 1 .lexer, 2, 0⟩) := rfl
  rw [lexerOpen, if_neg (by decide), hmalloc]
  simp only [tokenize_one_times]

theorem compile_one_times :
    ((compile counting strtodOne 0 ['1', '*'] noBlocks).toOption.map fun r => (r.1, r.2.2.live)) = some (none, {3, 4}) := by
  have hmalloc : Heap.malloc counting noBlocks .parser = (some 0, ⟨{0}, Function.update noBlocks.cell 0 .parser, 1, 0⟩) := rfl
  rw [compile, parserOpen, if_neg (by decide), hmalloc]
  simp only [lexerOpen_one_times, ok_bind]
  decide +kernel

/-- The text "1*" is rejected, and two nodes are left. -/
theorem a_rejected_text_leaks : ∃ r, compile counting strtodOne 0 ['1', '*'] noBlocks = .ok r ∧ r.1 = none ∧
    r.2.2.live = {3, 4} ∧ ∀ a ∈ r.2.2.live, Block.IsDag (r.2.2.cell a) := by
  have howns := compile_owns_its_memory counting strtodOne 0 ['1', '*'] noBlocks
  have hrun := compile_one_times
  generalize compile counting strtodOne 0 ['1', '*'] noBlocks = x at howns hrun
  cases howns with
  | error => cases hrun
  | @ok r _ h =>
    simp only [Except.toOption, Option.map_some, Option.some.injEq, Prod.mk.injEq] at hrun
    obtain ⟨hnone, hlive⟩ := hrun
    obtain ⟨S, hg, -⟩ := h.2 hnone
    refine ⟨r, rfl, hnone, hlive, fun a ha => hg.content a ?_⟩
    rw [hg.live] at ha
    exact (Finset.mem_union.mp ha).resolve_left (Finset.notMem_empty a)

end Cs238p.Jit.Alloc
