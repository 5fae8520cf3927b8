/-
  Cs238p.Avl.Failures — a store whose allocations may fail.

  `update` of no tree answers `NULL` when `scm_malloc` or `scm_strdup` does. The call above
  stores it in its child link, which was `NULL` already, and answers its own node: only in
  an empty store does `avl_insert` see that something failed
  (`a_failed_insertion_answers_zero`). `delete` does not look at what its `scm_strdup`
  answers: a node may be left whose item is `NULL`, and a call whose search comes by reads
  it.

  Proved, of every store that is reached with allocations that fail at will: exactly when an
  insertion returns and answers the truth (`insert_truthful_iff`).
-/
import Cs238p.Avl.Runs

namespace Cs238p.Avl

open ByteMemory Scm AvlTree CountTree

/-! ## What an insertion should answer -/

/-- The same tree, at the same addresses. -/
def SameTree (s s' : AvlSt) : Prop :=
  ∃ t : CountTree Loc, ((stateAt s.mem s.state).root = ptr t ∧ Shaped s.mem t) ∧
    (stateAt s'.mem s'.state).root = ptr t ∧ Shaped s'.mem t

/-- 0 is answered iff there is one more occurrence; otherwise nothing happened. -/
def Truthful (fuel : Nat) (s : AvlSt) (w : Word) (q : Int × AvlSt) : Prop :=
  ∃ m m', avlExists fuel s w.bytes = .ok m ∧ avlExists fuel q.2 w.bytes = .ok m' ∧ (q.1 = 0 ↔ m' = m + 1) ∧
    (q.1 ≠ 0 → SameTree s q.2 ∧ avlItems q.2 = avlItems s ∧ avlUnique q.2 = avlUnique s)

/-- The search for `w` reads no item that is `NULL`, and ends at a node whose count has room
    for one more, or at none: then the store is empty or the allocations succeed, and those
    that do stay inside the mapping. -/
def Reported (fuel : Nat) (s : AvlSt) (w : Word) : Prop :=
  ∃ p, seek s w.bytes fuel (stateAt s.mem s.state).root = .ok p ∧
    ((p ≠ 0 ∧ (nodeAt s.mem p).count + 1 < 2 ^ 64) ∨
      (p = 0 ∧ ((stateAt s.mem s.state).root = 0 ∨ Supplied s) ∧ Answers s w.bytes))

/-- The stores of all runs in which any allocation may fail. -/
inductive Reached (fuel size : Nat) (hs : vmStart + size < 2 ^ 64) (file : Mem) : AvlSt → Prop
  | opened {s : AvlSt} : avlOpen size hs file true [] = .ok (some s) → Reached fuel size hs file s
  | failing {s : AvlSt} (fails : List Bool) : Reached fuel size hs file s →
      Reached fuel size hs file { s with fails := fails }
  | insert {s s' : AvlSt} {w : Word} {r : Int} : Reached fuel size hs file s →
      avlInsert fuel s w.bytes = .ok (r, s') → Reached fuel size hs file s'
  | delete {s s' : AvlSt} {w : Word} {r : Int} : Reached fuel size hs file s →
      avlDelete fuel s w.bytes = .ok (r, s') → Reached fuel size hs file s'

variable {s s' : AvlSt} {t l r : CountTree Loc} {a : Loc} {F L : Multiset Cell} {w : Word} {fuel n p : Nat}
  {fails : List Bool}

/-! ## Allocations that fail -/

theorem Leaky.failing (h : Leaky s t L) (fails : List Bool) : Leaky { s with fails := fails } t L :=
  ⟨h.state, ⟨h.owns.holds, h.owns.shaped⟩, h.root, h.avl, h.ordered⟩

/-- Nothing has changed in the blocks `F`, and the blocks `L` are lost. -/
structure Lost (s s' : AvlSt) (F L : Multiset Cell) : Prop where
  holds : Holds s'.scm (F + L)
  agree : ByteMemory.Agree F s.mem s'.mem
  state : s'.state = s.state

theorem newNode_failed (h : Holds s.scm F) (hfail : ¬ Supplied s) (item : List UInt8) :
    Outcome (fun e => Full e ∧ ¬ Answers s item) (newNode s item) fun q => Answers s item ∧ q.1 = 0 ∧
      ∃ L, Lost s q.2 F L := by
  unfold newNode
  cases hf : s.fails.headD false with
  | true =>
    rw [malloc, allocate_failed hf]
    exact .ok ⟨Or.inl hf, rfl, 0, by rw [add_zero]; exact h, agree_refl _ _, rfl⟩
  | false =>
    -- there is a node, and then no string for it
    have hno : ∀ hw : s.fails.headD false = true, False := fun hw => by
      rw [hf] at hw
      cases hw
    refine ((malloc_spec h hf 40).weaken fun e he =>
      ⟨he.1, fun ha => he.2 ((ha.resolve_left hno).imp fun _ hr => hr.1)⟩).bind ?_
    intro q hq
    obtain ⟨root, s₁⟩ := q
    obtain ⟨hm, hh₁, hfr⟩ := hq
    have hfails : s₁.fails.headD false = true := by
      have hf₁ : s₁.fails = s.fails.tail := by
        obtain ⟨scm, -, -, hs₁⟩ := hm
        simp only at hs₁
        rw [hs₁]
      rw [hf₁]
      by_contra hne
      exact hfail ⟨hf, by simpa using hne⟩
    obtain ⟨hh₂, hfr₂⟩ := holds_put hh₁ (within_zeros s₁.mem root 40)
    have hnext : (s₁.put (s₁.mem.write root (List.replicate 40 0))).fails.headD false = true := hfails
    simp only [if_neg (holds_addr hh₁).1]
    rw [strdup, allocate_failed hnext]
    simp only [ok_bind, if_pos]
    generalize s₁.put (s₁.mem.write root (List.replicate 40 0)) = s₂ at hh₂ hfr₂ ⊢
    have hw : Within {(root, 40)} s₂.mem (setItem s₂.mem root 0) := within_store (by simp) (by simp)
    obtain ⟨hh₃, hfr₃⟩ := holds_put hh₂ hw
    rw [add_comm] at hh₃
    exact .ok ⟨Or.inr ⟨_, hm, Or.inl hfails⟩, rfl, {(root, 40)}, hh₃, (hfr.agree.trans hfr₂.agree).trans hfr₃.agree,
      hfr₂.state.trans hfr.state⟩

/-- The last line of `update`, where the depth is what it was. -/
theorem stamp_same {E : Stop → Prop} {A : Prop} {s₁ s₂ : AvlSt} {d : Int} {c : Nat} (ha : A)
    (hmk : mk c a l r = node d c a l r) (h1 : -2 ^ 31 ≤ depthOf l r) (h2 : depthOf l r < 2 ^ 31)
    (hag : ByteMemory.Agree F s.mem s₁.mem) (hst : s₁.state = s.state) (hfr : Frame s₁ s₂ (F + L))
    (ho : Owns s₂ (node d c a l r) (F + L)) :
    Outcome E (.ok (a.addr, stamp s₂ a.addr)) fun q => A ∧ q.1 = a.addr ∧ ∃ L, Owns q.2 (node d c a l r) (F + L) ∧
      ByteMemory.Agree F s.mem q.2.mem ∧ q.2.state = s.state := by
  obtain ⟨ho', hfr'⟩ := stamp_spec ho h1 h2
  rw [hmk] at ho'
  exact .ok ⟨ha, rfl, L, ho', (hag.trans (frame_add.mp hfr).1.agree).trans (frame_add.mp hfr').1.agree,
    hfr'.state.trans (hfr.state.trans hst)⟩

/-- The node above keeps its empty link, and answers itself. -/
theorem update_failed (hfail : ¬ Supplied s) (t : CountTree Loc) (w : Word) : ∀ {fuel : Nat} {F : Multiset Cell},
    Owns s t F → t.Avl → t.delta < 2 ^ 27 → t.delta + 1 < fuel → (words t).present w = false → Along w t →
      Outcome (fun e => Full e ∧ ¬ Answers s w.bytes) (update fuel s (ptr t) w.bytes) fun q => Answers s w.bytes ∧
        q.1 = ptr t ∧ ∃ L, Owns q.2 t (F + L) ∧ ByteMemory.Agree F s.mem q.2.mem ∧ q.2.state = s.state := by
  induction t with
  | nil =>
    intro fuel F h _ _ hfuel _ _
    obtain ⟨fuel, rfl⟩ : ∃ k, fuel = k + 1 := ⟨fuel - 1, by rw [delta_nil] at hfuel; omega⟩
    rw [update, ptr_nil, if_pos rfl]
    apply (newNode_failed (F := F) (by simpa using h.holds) hfail w.bytes).mono
    intro q hq
    obtain ⟨hans, hq, L, hlost⟩ := hq
    exact ⟨hans, hq, L, ⟨by rw [cells_nil, zero_add]; exact hlost.holds, trivial⟩, hlost.agree, hlost.state⟩
  | node d c a l r ihl ihr =>
    intro fuel F h havl hdelta hfuel habs hal
    obtain ⟨fuel, rfl⟩ : ∃ k, fuel = k + 1 := ⟨fuel - 1, by have := havl.delta_ge; omega⟩
    obtain ⟨⟨hl1, hl2⟩, hr1, hr2⟩ := sub_bounds havl
    obtain ⟨hdep, hd, hl, hr⟩ := havl
    rw [delta_node] at hdelta hfuel
    rw [words_node, present] at habs
    obtain ⟨hne, hall, halr⟩ := hal
    rw [update, ptr_node, if_neg h.shaped.2.2.1.1, h.shaped.1]
    simp only [h.strAt hne, ok_bind]
    -- the links are what they were, and so are the depths
    have hsum : ∀ G L, ({nodeCell a} : Multiset Cell) + (strCells a + (G + F)) + L =
        {nodeCell a} + (strCells a + (G + (F + L))) := fun G L => by abel
    have hrest : ∀ G, ({nodeCell a} : Multiset Cell) + (strCells a + (G + F)) =
        {nodeCell a} + (strCells a + G) + F := fun G => by abel
    have hmk : mk c a l r = node d c a l r := by rw [mk, hdep]
    have hdiff : ¬ 1 < (l.delta - r.delta).natAbs := by omega
    have hdepth := depthOf_eq l r
    rcases lt_trichotomy w a.word with hlt | he | hgt
    · rw [if_neg hlt.ne, if_pos hlt] at habs
      rw [if_neg (fun he => hlt.ne (Word.strcmp_eq.mp he)), if_pos (Word.strcmp_lt.mpr hlt)]
      refine (@ihl fuel _ h.left hl (by omega) (by omega) habs (hall hlt)).bind ?_
      intro q hq
      obtain ⟨left, s₁⟩ := q
      obtain ⟨hans, rfl, L, ho, hag, hst⟩ := hq
      rw [hrest, agree_add] at hag
      rw [hsum] at ho
      obtain ⟨ho₂, hf₂⟩ := owns_setLeft h.shaped ho hag.1
      rw [fixLeft, ho₂.shaped.balance_eq]
      simp only [ok_bind, if_neg hdiff]
      exact stamp_same hans hmk (by omega) (by omega) hag.2 hst hf₂ ho₂
    · rw [if_pos he] at habs
      cases habs
    · rw [if_neg hgt.ne', if_neg hgt.not_gt] at habs
      rw [if_neg (fun he => hgt.ne' (Word.strcmp_eq.mp he)), if_neg (fun hs => hgt.not_gt (Word.strcmp_lt.mp hs))]
      refine (@ihr fuel _ h.right hr (by omega) (by omega) habs (halr hgt)).bind ?_
      intro q hq
      obtain ⟨right, s₁⟩ := q
      obtain ⟨hans, rfl, L, ho, hag, hst⟩ := hq
      rw [hrest, agree_add] at hag
      rw [hsum] at ho
      obtain ⟨ho₂, hf₂⟩ := owns_setRight h.shaped ho hag.1
      rw [fixRight, ho₂.shaped.balance_eq]
      simp only [ok_bind, if_neg hdiff]
      exact stamp_same hans hmk (by omega) (by omega) hag.2 hst hf₂ ho₂

/-! ## Insertions -/

/-- A new word without memory: nothing is inserted, and only an empty store says so. -/
theorem insert_failed (h : Leaky s t L) (w : Word) (hfuel : 120 ≤ fuel) (hfail : ¬ Supplied s)
    (habs : (words t).present w = false) (hal : Along w t) :
    Outcome (fun e => Full e ∧ ¬ Answers s w.bytes) (avlInsert fuel s w.bytes) fun q => Answers s w.bytes ∧
      (q.1 = 0 ↔ t ≠ nil) ∧ (∃ L', Leaky q.2 t L') ∧ avlItems q.2 = avlItems s ∧ avlUnique q.2 = avlUnique s := by
  have hdelta := h.owns.delta_le h.avl
  rw [avlInsert, if_neg w.nonempty, h.state, h.root]
  refine (update_failed hfail t w h.owns h.avl (by omega) (by omega) habs hal).bind ?_
  intro q hq
  obtain ⟨root, s₁⟩ := q
  obtain ⟨hans, rfl, L', ho, hag, hst⟩ := hq
  have hp₁ : s₁.state = base + 16 := hst.trans h.state
  have hrec : stateAt s₁.mem (base + 16) = ⟨avlItems s, avlUnique s, ptr t⟩ :=
    (stateAt_congr (agree_add.mp hag).1).trans h.record
  rw [add_assoc] at ho
  by_cases hnil : ptr t = 0
  · simp only [if_pos hnil]
    have ht := h.owns.shaped.ptr_eq_zero.mp hnil
    refine .ok ⟨hans, ⟨fun h0 => absurd h0 (show (-1 : Int) ≠ 0 by decide), fun hne => absurd ht hne⟩,
      ⟨L + L', hp₁, ho, by rw [hrec], h.avl, h.ordered⟩, ?_, ?_⟩
    · rw [avlItems, hp₁, hrec]
    · rw [avlUnique, hp₁, hrec]
  · simp only [if_neg hnil, hp₁]
    obtain ⟨ho', -, hst'⟩ := put_state ho (edit_setRoot hrec ho.shaped.ptr_lt)
    refine .ok ⟨hans, ⟨fun _ h0 => hnil (by rw [h0, ptr_nil]), fun _ => rfl⟩,
      ⟨L + L', hp₁, ho', by rw [hst'], h.avl, h.ordered⟩, ?_, ?_⟩
    · rw [avlItems, state_put, hp₁, hst']
    · rw [avlUnique, state_put, hp₁, hst']

/-! ## Items that are `NULL` -/

theorem update_null (t : CountTree Loc) (w : Word) : ∀ {fuel : Nat} {F : Multiset Cell}, Owns s t F → t.Avl →
    t.delta + 1 < fuel → ¬ Along w t → update fuel s (ptr t) w.bytes = .error .null := by
  induction t with
  | nil => exact fun _ _ _ hno => absurd trivial hno
  | node d c a l r ihl ihr =>
    intro fuel F h havl hfuel hno
    obtain ⟨fuel, rfl⟩ : ∃ k, fuel = k + 1 := ⟨fuel - 1, by have := havl.delta_ge; omega⟩
    obtain ⟨⟨hl1, hl2⟩, hr1, hr2⟩ := sub_bounds havl
    obtain ⟨-, -, hl, hr⟩ := havl
    rw [delta_node] at hfuel
    rw [update, ptr_node, if_neg h.shaped.2.2.1.1, h.shaped.1]
    by_cases hne : a.str = 0
    · simp only [strAt_null hne, error_bind]
    simp only [h.strAt hne, ok_bind]
    rcases lt_trichotomy w a.word with hlt | he | hgt
    · rw [if_neg (fun he => hlt.ne (Word.strcmp_eq.mp he)), if_pos (Word.strcmp_lt.mpr hlt),
        ihl h.left hl (by omega) fun hal => hno ⟨hne, fun _ => hal, fun hgt => absurd hlt hgt.not_gt⟩]
      rfl
    · exact absurd ⟨hne, fun hlt => absurd he hlt.ne, fun hgt => absurd he hgt.ne'⟩ hno
    · rw [if_neg (fun he => hgt.ne' (Word.strcmp_eq.mp he)), if_neg (fun hs => hgt.not_gt (Word.strcmp_lt.mp hs)),
        ihr h.right hr (by omega) fun hal => hno ⟨hne, fun hlt => absurd hlt hgt.not_gt, fun _ => hal⟩]
      rfl

/-- An insertion whose search comes by such an item ends there. -/
theorem Leaky.insert_null (h : Leaky s t L) (hfuel : t.delta + 1 < fuel) (hno : ¬ Along w t) :
    avlInsert fuel s w.bytes = .error .null := by
  rw [avlInsert, if_neg w.nonempty, h.state, h.root, update_null t w h.owns h.avl hfuel hno]
  rfl

theorem Leaky.delete_null (h : Leaky s t L) (hfuel : t.delta + 1 < fuel) (hno : ¬ Along w t) :
    avlDelete fuel s w.bytes = .error .null := by
  have hex := @Leaky.exists_outcome s t L w fuel h hfuel
  rw [avlDelete, if_neg w.nonempty]
  cases he : avlExists fuel s w.bytes with
  | ok n =>
    rw [he] at hex
    cases hex with
    | ok hal => exact absurd hal.1 hno
  | error e =>
    rw [he] at hex
    cases hex with
    | error he => rw [he.1]; rfl

/-! ## The stores that are reached -/

variable {size : Nat} {hs : vmStart + size < 2 ^ 64} {file : Mem}

theorem Reached.leaky (hfuel : 120 ≤ fuel) (h : Reached fuel size hs file s) : ∃ t L, Leaky s t L := by
  induction h with
  | opened ho =>
    have hspec := @open_spec size hs file
    rw [ho] at hspec
    cases hspec with
    | ok hh =>
      obtain ⟨s', hs', h, -⟩ := hh
      cases hs'
      exact ⟨nil, 0, h.leaky⟩
  | failing fails _ ih =>
    obtain ⟨t, L, h⟩ := ih
    exact ⟨t, L, h.failing fails⟩
  | @insert s s' w r _ hi ih =>
    obtain ⟨t, L, h⟩ := ih
    have hdelta := h.owns.delta_le h.avl
    have hal : Along w t := by
      by_contra hno
      rw [h.insert_null (by omega) hno] at hi
      cases hi
    by_cases hnew : (words t).present w = false → Supplied s
    · have hspec := h.insert_spec hal hnew (show t.delta + 1 < fuel by omega)
      rw [hi] at hspec
      cases hspec with
      | ok hh =>
        obtain ⟨-, -, -, t', h', -⟩ := hh
        exact ⟨t', L, h'⟩
    · rw [Classical.not_imp] at hnew
      have hspec := insert_failed h w hfuel hnew.2 hnew.1 hal
      rw [hi] at hspec
      cases hspec with
      | ok hh =>
        obtain ⟨-, -, ⟨L', h'⟩, -⟩ := hh
        exact ⟨t, L', h'⟩
  | @delete s s' w r _ hd ih =>
    obtain ⟨t, L, h⟩ := ih
    have hdelta := h.owns.delta_le h.avl
    have hal : Along w t := by
      by_contra hno
      rw [h.delete_null (by omega) hno] at hd
      cases hd
    by_cases hc : toInt32 ((words t).find w) = 0
    · rw [h.delete_absent hal (by omega) hc] at hd
      cases hd
    · have hspec := h.delete_spec hal (show t.delta + 1 < fuel by omega) hc
      rw [hd] at hspec
      cases hspec with
      | ok hh =>
        obtain ⟨-, -, -, t', h', -⟩ := hh
        exact ⟨t', L, h'⟩

/-! ## Answers -/

/-- What an insertion answers of a word that is there. -/
theorem truthful_present (h : Leaky s t L) (hfuel : 120 ≤ fuel) (hal : Along w t) (hpres : (words t).present w = true) :
    (∃ q, avlInsert fuel s w.bytes = .ok q ∧ Truthful fuel s w q) ↔ (words t).find w + 1 < 2 ^ 64 := by
  have hlt := h.owns.shaped.find_lt w
  have hdelta := h.owns.delta_le h.avl
  have habs : ¬ (words t).present w = false := by rw [hpres]; exact Bool.true_eq_false_eq_False
  obtain ⟨q, hq, hr, -, -, t', h', hsound, hw, -⟩ := (h.insert_spec hal (fun hno => absurd hno habs)
    (show t.delta + 1 < fuel by omega)).exists_ok fun e _ he => habs he.1.2
  have hdelta' := h'.owns.delta_le h'.avl
  have hnext : (words t').find w = next ((words t).find w) := by rw [hw, find_insert h.ordered, if_pos rfl, if_pos hpres]
  have hex : avlExists fuel s w.bytes = .ok ((words t).find w) := h.exists_spec hal (by omega)
  have hex' : avlExists fuel q.2 w.bytes = .ok (next ((words t).find w)) := by
    rw [h'.exists_spec hsound.1 (by omega), hnext]
  rw [hq]
  constructor
  · rintro ⟨q', hq', m, m', hm, hm', hiff, -⟩
    cases hq'
    rw [hex] at hm
    rw [hex'] at hm'
    cases hm
    cases hm'
    have hgrown := hiff.mp hr
    have := next_lt ((words t).find w)
    omega
  · intro hroom
    exact ⟨q, rfl, _, _, hex, hex', iff_of_true hr (Nat.mod_eq_of_lt hroom), fun hne => absurd hr hne⟩

/-- And of a new one. -/
theorem truthful_absent (h : Leaky s t L) (hfuel : 120 ≤ fuel) (hal : Along w t) (habs : (words t).present w = false) :
    (∃ q, avlInsert fuel s w.bytes = .ok q ∧ Truthful fuel s w q) ↔ (t = nil ∨ Supplied s) ∧ Answers s w.bytes := by
  have hdelta := h.owns.delta_le h.avl
  have hfind := find_of_absent habs
  have hex : avlExists fuel s w.bytes = .ok 0 := by rw [h.exists_spec hal (by omega), hfind]
  by_cases hsup : Supplied s
  · have hspec := h.insert_spec hal (fun _ => hsup) (show t.delta + 1 < fuel by omega)
    constructor
    · rintro ⟨q, hq, -⟩
      rw [hq] at hspec
      cases hspec with
      | ok hok => exact ⟨Or.inr hsup, hok.2.1 habs⟩
    · intro hans
      obtain ⟨q, hq, hr, -, -, t', h', hsound, hw, -⟩ := hspec.exists_ok fun e _ he => he.2 hans.2
      have hdelta' := h'.owns.delta_le h'.avl
      have hex' : avlExists fuel q.2 w.bytes = .ok 1 := by
        rw [h'.exists_spec hsound.1 (by omega), hw, find_insert h.ordered, if_pos rfl, habs]
        rfl
      exact ⟨q, hq, 0, 1, hex, hex', iff_of_true hr rfl, fun hne => absurd hr hne⟩
  · have hspec := insert_failed h w hfuel hsup habs hal
    constructor
    · rintro ⟨q, hq, m, m', hm, hm', hiff, -⟩
      rw [hq] at hspec
      cases hspec with
      | ok hok =>
        obtain ⟨hans, hr, ⟨L', h'⟩, -⟩ := hok
        rw [hex] at hm
        rw [h'.exists_spec hal (by omega), hfind] at hm'
        cases hm
        cases hm'
        refine ⟨Or.inl ?_, hans⟩
        by_contra hne
        have hgrown := hiff.mp (hr.mpr hne)
        omega
    · intro hans
      have hnil := hans.1.resolve_right hsup
      obtain ⟨q, hq, -, hr, ⟨L', h'⟩, hi, hu⟩ := hspec.exists_ok fun e _ he => he.2 hans.2
      have hex' : avlExists fuel q.2 w.bytes = .ok 0 := by rw [h'.exists_spec hal (by omega), hfind]
      have hsame : SameTree s q.2 :=
        ⟨t, ⟨by rw [h.state, h.root], h.owns.shaped⟩, by rw [h'.state, h'.root], h'.owns.shaped⟩
      exact ⟨q, hq, 0, 0, hex, hex', iff_of_false (fun h0 => hr.mp h0 hnil) (by omega), fun _ => ⟨hsame, hi, hu⟩⟩

/-- In every store that is reached: an insertion returns and answers the truth iff its search
    reads no `NULL` item, the word's count has room for one more, or the word is new and the
    store is empty or the two allocations succeed, and what is allocated fits the region. -/
theorem insert_truthful_iff (fuel size : Nat) (hs : vmStart + size < 2 ^ 64) (file : Mem) (hfuel : 120 ≤ fuel)
    (s : AvlSt) (hreach : Reached fuel size hs file s) (w : Word) :
    (∃ q, avlInsert fuel s w.bytes = .ok q ∧ Truthful fuel s w q) ↔ Reported fuel s w := by
  obtain ⟨t, L, h⟩ := hreach.leaky hfuel
  have hdelta := h.owns.delta_le h.avl
  have hseek := @seek_spec s t _ w fuel h.owns h.avl (by omega)
  rw [Reported, h.state, h.root]
  by_cases hal : Along w t
  · obtain ⟨p, hp, -, hs⟩ := hseek.exists_ok fun e _ he => he.2 hal
    rw [hp]
    simp only [Except.ok.injEq, exists_eq_left']
    rcases hs with ⟨rfl, habs, -⟩ | ⟨d, c, l, r, F, hs⟩
    · rw [truthful_absent h hfuel hal habs, h.owns.shaped.ptr_eq_zero]
      constructor
      · exact fun hans => Or.inr ⟨rfl, hans⟩
      · rintro (⟨h0, -⟩ | ⟨-, hans⟩)
        · exact absurd rfl h0
        · exact hans
    · obtain ⟨str, -, ho⟩ := hs.owns
      have hcount : (nodeAt s.mem p).count = (words t).find w := by rw [ho.shaped.1, hs.find]
      rw [truthful_present h hfuel hal hs.present, hcount]
      constructor
      · exact fun hroom => Or.inl ⟨ho.shaped.2.2.1.1, hroom⟩
      · rintro (⟨-, hroom⟩ | ⟨h0, -⟩)
        · exact hroom
        · exact absurd h0 ho.shaped.2.2.1.1
  · rw [h.insert_null (by omega) hal]
    constructor
    · rintro ⟨q, hq, -⟩
      cases hq
    · rintro ⟨p, hp, -⟩
      rw [hp] at hseek
      cases hseek with
      | ok hok => exact absurd hok.1 hal

/-! ## A store with one word -/

theorem reached_run (hfuel : 120 ≤ fuel) : ∀ {s : AvlSt} {t : CountTree Loc} (ops : List Op), Holding s t →
    Reached fuel size hs file s → run fuel s ops = .ok s' → Reached fuel size hs file s'
  | _, _, [], _, hreach, hrun => by
    cases hrun
    exact hreach
  | s, t, op :: ops, h, hreach, hrun => by
    have hdelta := h.owns.delta_le h.avl
    have hstep := step_holding h (show t.delta + 1 < fuel by omega) op
    rw [run] at hrun
    cases hs₁ : step fuel s op with
    | error e =>
      rw [hs₁] at hrun
      cases hrun
    | ok s₁ =>
      rw [hs₁] at hrun hstep
      cases hstep with
      | ok hh =>
        obtain ⟨t₁, h₁, -⟩ := hh
        refine reached_run hfuel ops h₁ ?_ hrun
        cases op with
        | insert w =>
          rw [step] at hs₁
          cases hi : avlInsert fuel s w.bytes with
          | error e =>
            rw [hi] at hs₁
            cases hs₁
          | ok q =>
            rw [hi] at hs₁
            cases hs₁
            exact .insert hreach hi
        | delete w =>
          rw [step] at hs₁
          cases hd : avlDelete fuel s w.bytes with
          | error e =>
            rw [hd] at hs₁
            cases hs₁
          | ok q =>
            rw [hd] at hs₁
            cases hs₁
            exact .delete hreach hd

/-- The runs in which no allocation fails are among these. -/
theorem reached_session {ops : List Op} (hfuel : 120 ≤ fuel) (hrun : session fuel size hs file ops = .ok s) :
    Reached fuel size hs file s := by
  have hspec := @open_spec size hs file
  unfold session at hrun
  cases ho : avlOpen size hs file true [] with
  | error e =>
    rw [ho] at hrun
    cases hrun
  | ok r =>
    rw [ho] at hrun hspec
    cases hspec with
    | ok hh =>
      obtain ⟨s₀, rfl, h, -⟩ := hh
      exact reached_run hfuel ops h (.opened ho) hrun

/-- The words "d", "b", "e", "a" and "c": the node of "b" has two children, and is not the root. -/
def fiveWords : List Op :=
  [.insert (.rep 100 letter_d 0), .insert (.rep 98 letter_b 0), .insert (.rep 101 letter_e 0),
    .insert (.rep 97 letter_a 0), .insert (.rep 99 letter_c 0)]

/-- Whether the search for a word ends at a node that has room for one more; `none` when it
    reads an item that is `NULL`. -/
def roomy (s : AvlSt) (item : List UInt8) : Option Bool :=
  (seek s item 120 (stateAt s.mem s.state).root).toOption.map fun p => decide (p ≠ 0 ∧ (nodeAt s.mem p).count + 1 < 2 ^ 64)

/-- After the deletion of "b", for which no copy of "c" can be made. -/
theorem fiveWords_uncopied : ((session 120 4096 (by decide) blank fiveWords).bind fun s =>
      avlDelete 120 { s with fails := [true] } [98]).map (fun q => (roomy q.2 [101], roomy q.2 [97])) =
    .ok (some true, none) := by decide +kernel

/-- There "e" is inserted as it should be, and "a" is not. -/
theorem insert_truthful_iff_few_words : ∃ s, Reached 120 4096 (by decide) blank s ∧
    (∃ q, avlInsert 120 s [101] = .ok q ∧ Truthful 120 s (.rep 101 letter_e 0) q) ∧
    ¬ ∃ q, avlInsert 120 s [97] = .ok q ∧ Truthful 120 s (.rep 97 letter_a 0) q := by
  obtain ⟨q, hq, hroomy⟩ := exists_ok_of_map fiveWords_uncopied
  cases hs : session 120 4096 (by decide) blank fiveWords with
  | error e =>
    rw [hs] at hq
    cases hq
  | ok s₀ =>
    rw [hs] at hq
    simp only [Except.bind] at hq
    have hb : (Word.rep 98 letter_b 0).bytes = [98] := rfl
    have hdel : avlDelete 120 { s₀ with fails := [true] } (Word.rep 98 letter_b 0).bytes = .ok (q.1, q.2) := hb ▸ hq
    have hreach : Reached 120 4096 (by decide) blank q.2 := ((reached_session (by decide) hs).failing [true]).delete hdel
    obtain ⟨hyes, hno⟩ := Prod.mk.inj hroomy
    refine ⟨q.2, hreach, ?_, fun hins => ?_⟩
    · apply (insert_truthful_iff 120 4096 (by decide) blank (by decide) q.2 hreach (.rep 101 letter_e 0)).mpr
      obtain ⟨p, hp, hroom⟩ := Option.map_eq_some_iff.mp hyes
      exact ⟨p, ok_of_toOption hp, Or.inl (of_decide_eq_true hroom)⟩
    · obtain ⟨p, hp, -⟩ :=
        (insert_truthful_iff 120 4096 (by decide) blank (by decide) q.2 hreach (.rep 97 letter_a 0)).mp hins
      change seek q.2 [97] 120 _ = _ at hp
      rw [roomy, hp] at hno
      cases hno

/-- Of the store with the word "b", whose next allocation fails: "a" is inserted with the
    answer 0, and is not there. -/
theorem insert_without_memory : (session 120 4096 (by decide) blank [.insert (.rep 98 letter_b 0)]).map (fun s =>
    (avlInsert 120 { s with fails := [true] } [97]).toOption.map fun q =>
      (q.1, (avlExists 120 { s with fails := [true] } [97]).toOption, (avlExists 120 q.2 [97]).toOption)) =
    .ok (some (0, some 0, some 0)) := by decide +kernel

theorem a_failed_insertion_answers_zero : ¬ ∀ s : AvlSt, Reached 120 4096 (by decide) blank s →
    ∀ (w : Word) (q : Int × AvlSt), avlInsert 120 s w.bytes = .ok q → Truthful 120 s w q := by
  intro hall
  obtain ⟨s, hs, hins⟩ := exists_ok_of_map insert_without_memory
  have hreach := (reached_session (by decide) hs).failing [true]
  obtain ⟨q, hq, hres⟩ := Option.map_eq_some_iff.mp hins
  obtain ⟨hr, hm, hm'⟩ := Prod.mk.inj hres |>.imp_right Prod.mk.inj
  obtain ⟨m, m', h₁, h₂, hiff, -⟩ := hall _ hreach (.rep 97 letter_a 0) q (ok_of_toOption hq)
  change avlExists 120 { s with fails := [true] } [97] = .ok m at h₁
  change avlExists 120 q.2 [97] = .ok m' at h₂
  rw [h₁] at hm
  rw [h₂] at hm'
  cases hm
  cases hm'
  have hgrown := hiff.mp hr
  omega

end Cs238p.Avl
