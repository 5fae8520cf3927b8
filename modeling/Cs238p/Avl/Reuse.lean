/-
  Cs238p.Avl.Reuse — which allocations use freed memory again.

  `scm_malloc` looks for a free block first; `scm_strdup` always takes memory past the mark
  (`a_string_takes_new_memory`). A new word's string comes from `scm_strdup`, so a word that
  is inserted and deleted again and again uses up the region.

  Proved: a request is served from a free block that is large enough exactly when it is a
  `scm_malloc`, and cycles of an insertion and a deletion stay within a bound exactly when
  the word is there before (`freed_memory_is_reused_iff`).
-/
import Cs238p.Avl.Runs
import Cs238p.Scm.Requests
import Cs238p.Scm.Runs

namespace Cs238p.Avl

open ByteMemory Scm AvlTree CountTree Arena

variable {s s' : AvlSt} {t : CountTree Loc} {F : Multiset Cell} {w : Word} {fuel size : Nat}
  {hs : vmStart + size < 2 ^ 64} {file : Mem} {E : Stop → Prop}

/-! ## One request -/

/-- The bytes that a call asks for. -/
def asks : Call → Option Nat
  | .malloc n => some n
  | .strdup str => some (str.length + 1)
  | .free _ => none

/-- The call is served from a free block of at least `n` bytes, and no new memory is used. -/
def Recycled (s : ScmSt) (bs : List Blk) (n : Nat) (c : Call) : Prop :=
  ∃ p s', call s c = .ok (some p, s') ∧ (∃ b ∈ bs, b.addr = p ∧ b.inUse = false ∧ n ≤ b.size) ∧
    s'.usedBytes = s.usedBytes

theorem recycled_iff {s : ScmSt} {bs : List Blk} {c : Call} {n : Nat} (h : HeapRepr s bs) (hc : asks c = some n)
    (hfree : ∃ b ∈ bs, b.inUse = false ∧ n ≤ b.size) : Recycled s bs n c ↔ ∃ n, c = .malloc n := by
  cases c with
  | malloc k =>
    cases hc
    refine iff_of_true ?_ ⟨n, rfl⟩
    cases hf : firstFit n bs with
    | none =>
      obtain ⟨b, hb, hu, hn⟩ := hfree
      exact absurd hn (firstFit_none hf b hb hu)
    | some b =>
      obtain ⟨hb, hu, hn⟩ := firstFit_some hf
      obtain ⟨s', hm, -, -, -, hused, -⟩ := malloc_reuse h hf
      exact ⟨b.addr, s', by rw [call, hm]; rfl, ⟨b, hb, rfl, hu, hn⟩, hused⟩
  | strdup str =>
    refine iff_of_false ?_ (by rintro ⟨n, hn⟩; cases hn)
    rintro ⟨p, s', hcall, ⟨b, hb, hp, -⟩, -⟩
    cases hcall
    exact h.fresh (List.mem_map.mpr ⟨b, hb, hp⟩)
  | free p => cases hc

/-! ## The used bytes -/

@[simp] theorem used_put (s : AvlSt) (m : Mem) : (s.put m).scm.usedBytes = s.scm.usedBytes := rfl

/-- The computation answers a store whose used bytes meet `P`. -/
abbrev Uses {α : Type} (P : Nat → Prop) (r : Except Stop (α × AvlSt)) : Prop :=
  Outcome (fun _ => True) r fun q => P q.2.scm.usedBytes

/-- A new block with its header, which the size of the mapping keeps from wrapping. -/
theorem used_extend {n : Nat} {m : Mem} (s : ScmSt) (h : base + s.usedBytes + 16 + n ≤ vmStart + s.size) :
    (extend s n m).usedBytes = s.usedBytes + (n + 16) := by
  have hsize := s.size_lt
  simp only [base] at h
  exact Nat.mod_eq_of_lt (by omega)

theorem uses_malloc (s : AvlSt) (n : Nat) : Uses (s.scm.usedBytes ≤ ·) (malloc s n) := by
  unfold malloc allocate
  by_cases hf : s.fails.headD false = true
  · rw [if_pos hf]
    exact .ok (Nat.le_refl _)
  rw [if_neg hf]
  unfold scmMalloc
  split
  · exact .error trivial
  · simp only [ok_bind]
    split
    · exact .error trivial
    · exact .ok (Nat.le_refl _)
  · by_cases hsize : (s.scm.usedBytes + n + 16) % 2 ^ 64 > s.scm.size
    · rw [if_pos hsize]
      exact .error trivial
    rw [if_neg hsize]
    simp only [ok_bind]
    split
    · exact .error trivial
    · rename_i hend
      refine .ok ?_
      rw [used_extend s.scm (by simpa [extend, setInfo] using hend)]
      exact Nat.le_add_right _ _

theorem uses_strdup (s : AvlSt) (hf : s.fails.headD false = false) (str : List UInt8) :
    Uses (· = s.scm.usedBytes + (str.length + 17)) (strdup s str) := by
  unfold strdup allocate
  rw [hf, if_neg Bool.false_ne_true]
  simp only [ok_bind, scmStrdup]
  split
  · exact .error trivial
  · rename_i hend
    exact .ok (used_extend s.scm (by simpa [extend, setInfo] using hend))

theorem uses_strdup_le (s : AvlSt) (str : List UInt8) : Uses (s.scm.usedBytes ≤ ·) (strdup s str) := by
  cases hf : s.fails.headD false with
  | false => exact (uses_strdup s hf str).mono fun _ hq => hq ▸ Nat.le_add_right _ _
  | true =>
    unfold strdup allocate
    rw [hf, if_pos rfl]
    exact .ok (Nat.le_refl _)

theorem uses_free (s : AvlSt) (p : Nat) :
    Outcome (fun _ => True) (free s p) fun s' => s'.scm.usedBytes = s.scm.usedBytes := by
  unfold free scmFree
  split
  · exact .error trivial
  · exact .ok rfl
  · exact .ok rfl

/-! ## The used bytes of an insertion -/

/-- Rotations only write to nodes. -/
theorem uses_fixLeft (s : AvlSt) (root : Nat) (item : List UInt8) :
    Uses (· = s.scm.usedBytes) (fixLeft s root item) := by
  unfold fixLeft
  refine (outcome_trivial _).bind fun b _ => ?_
  split
  · refine (outcome_trivial _).bind fun left _ => ?_
    refine (outcome_trivial _).bind fun str _ => ?_
    simp only
    split
    · exact (outcome_trivial _).bind fun q _ => .ok rfl
    · exact (outcome_trivial _).bind fun q _ => .ok rfl
  · exact .ok rfl

theorem uses_fixRight (s : AvlSt) (root : Nat) (item : List UInt8) :
    Uses (· = s.scm.usedBytes) (fixRight s root item) := by
  unfold fixRight
  refine (outcome_trivial _).bind fun b _ => ?_
  split
  · refine (outcome_trivial _).bind fun right _ => ?_
    refine (outcome_trivial _).bind fun str _ => ?_
    simp only
    split
    · exact (outcome_trivial _).bind fun q _ => .ok rfl
    · exact (outcome_trivial _).bind fun q _ => .ok rfl
  · exact .ok rfl

/-- The string of a new node is new memory. -/
theorem uses_newNode (h : Holds s.scm F) (hf : s.fails = []) (item : List UInt8) :
    Uses (s.scm.usedBytes + (item.length + 17) ≤ ·) (newNode s item) := by
  have hroot := (malloc_spec h (by rw [hf]; rfl) 40).weaken fun _ _ => trivial
  unfold newNode
  refine (hroot.and fun _ _ => uses_malloc s 40).bind ?_
  intro q hq
  obtain ⟨root, s₁⟩ := q
  obtain ⟨⟨-, hh, hfr⟩, hle⟩ := hq
  have hf₁ : s₁.fails = [] := hfr.fails hf
  simp only [if_neg (holds_addr hh).1]
  refine (uses_strdup (s₁.put (s₁.mem.write root (List.replicate 40 0))) (by rw [fails_put, hf₁]; rfl) item).bind ?_
  intro q hq
  obtain ⟨str, s₂⟩ := q
  have hgrown : s.scm.usedBytes + (item.length + 17) ≤ s₂.scm.usedBytes := by
    simp only [used_put] at hq hle
    omega
  simp only
  split
  · exact .ok hgrown
  · exact .ok hgrown

/-- An insertion uses what the new node does, and nothing for a word that is there. -/
theorem uses_update {P : Nat → Prop} (t : CountTree Loc) (w : Word) : ∀ {fuel : Nat} {F : Multiset Cell}, Owns s t F →
    ((words t).present w = false → Uses P (newNode s w.bytes)) →
    ((words t).present w = true → P s.scm.usedBytes) → Uses P (update fuel s (ptr t) w.bytes) := by
  induction t with
  | nil =>
    intro fuel F h hnew _
    cases fuel with
    | zero => exact .error trivial
    | succ fuel =>
      rw [update, ptr_nil, if_pos rfl]
      exact hnew rfl
  | node d c a l r ihl ihr =>
    intro fuel F h hnew hold
    cases fuel with
    | zero => exact .error trivial
    | succ fuel =>
      rw [update, ptr_node, if_neg h.shaped.2.2.1.1, h.shaped.1]
      by_cases hne : a.str = 0
      · simp only [strAt_null hne, error_bind]
        exact .error trivial
      simp only [h.strAt hne, ok_bind]
      rw [words_node, present] at hnew hold
      -- the recursive call starts from the same store
      rcases lt_trichotomy w a.word with hlt | he | hgt
      · rw [if_neg hlt.ne, if_pos hlt] at hnew hold
        rw [if_neg (fun he => hlt.ne (Word.strcmp_eq.mp he)), if_pos (Word.strcmp_lt.mpr hlt)]
        refine (@ihl fuel _ h.left hnew hold).bind fun q hq => ?_
        refine (uses_fixLeft _ _ _).bind fun q' hq' => .ok ?_
        change P q'.2.scm.usedBytes
        rw [hq']
        exact hq
      · rw [if_pos he] at hold
        rw [if_pos (Word.strcmp_eq.mpr he)]
        exact .ok (hold rfl)
      · rw [if_neg hgt.ne', if_neg hgt.not_gt] at hnew hold
        rw [if_neg (fun he => hgt.ne' (Word.strcmp_eq.mp he)), if_neg (fun hs => hgt.not_gt (Word.strcmp_lt.mp hs))]
        refine (@ihr fuel _ h.right hnew hold).bind fun q hq => ?_
        refine (uses_fixRight _ _ _).bind fun q' hq' => .ok ?_
        change P q'.2.scm.usedBytes
        rw [hq']
        exact hq

/-- The used bytes after an insertion: a new word takes its string at least. -/
def Took (s : AvlSt) (t : CountTree Loc) (w : Word) (u : Nat) : Prop :=
  s.scm.usedBytes + (if (words t).present w then 0 else w.bytes.length + 17) ≤ u ∧
    ((words t).present w = true → u = s.scm.usedBytes)

theorem uses_insert (h : Holding s t) (w : Word) (fuel : Nat) : Uses (Took s t w) (avlInsert fuel s w.bytes) := by
  rw [avlInsert, if_neg w.nonempty, h.state, h.root]
  have hup : Uses (Took s t w) (update fuel s (ptr t) w.bytes) := by
    apply uses_update t w h.owns
    · intro hnew
      apply (uses_newNode h.owns.holds h.fails w.bytes).mono
      intro q hq
      rw [Took, hnew]
      exact ⟨hq, fun hold => by cases hold⟩
    · intro hold
      rw [Took, hold]
      exact ⟨Nat.le_refl _, fun _ => rfl⟩
  refine hup.bind fun q hq => ?_
  obtain ⟨root, s₁⟩ := q
  simp only
  split
  · exact .ok hq
  · exact .ok hq

/-! ## The used bytes of a deletion -/

theorem uses_restore (s : AvlSt) (root : Nat) : Uses (· = s.scm.usedBytes) (restore s root) := by
  unfold restore
  exact (outcome_trivial _).bind fun q _ => .ok rfl

theorem uses_discard (s : AvlSt) (root : Nat) :
    Outcome (fun _ => True) (discard s root) fun s' => s'.scm.usedBytes = s.scm.usedBytes := by
  unfold discard
  refine (uses_free s _).bind fun s₁ h₁ => ?_
  exact (uses_free s₁ root).mono fun s₂ h₂ => h₂.trans h₁

theorem uses_takeOver (s : AvlSt) (root temp : Nat) :
    Outcome (fun _ => True) (takeOver s root temp) fun s' => s.scm.usedBytes ≤ s'.scm.usedBytes := by
  unfold takeOver
  refine (outcome_trivial _).bind fun item _ => ?_
  refine (uses_strdup_le s item).bind fun q hq => ?_
  refine (uses_free _ _).bind fun s₁ h₁ => .ok ?_
  simp only [used_put] at h₁ ⊢
  rw [h₁]
  exact hq

/-- Whatever is deleted, the mark does not go back. -/
theorem uses_delete : ∀ (fuel : Nat) (s : AvlSt) (root : Nat) (item : Str),
    Uses (s.scm.usedBytes ≤ ·) (delete fuel s root item) := by
  intro fuel
  induction fuel with
  | zero => exact fun _ _ _ => .error trivial
  | succ fuel ih =>
    intro s root item
    rw [delete]
    split
    · exact .ok (Nat.le_refl _)
    refine (outcome_trivial _).bind fun bytes _ => ?_
    refine (outcome_trivial _).bind fun key _ => ?_
    simp only
    split
    · refine (ih s _ item).bind fun q hq => ?_
      exact (uses_restore _ _).mono fun q' hq' => by rw [hq']; exact hq
    split
    · refine (ih s _ item).bind fun q hq => ?_
      exact (uses_restore _ _).mono fun q' hq' => by rw [hq']; exact hq
    split
    · exact (uses_restore _ _).mono fun q' hq' => by rw [hq']; exact Nat.le_refl _
    split
    · exact (uses_discard s root).bind fun s₁ h₁ => .ok (Nat.le_of_eq h₁.symm)
    split
    · exact (uses_discard s root).bind fun s₁ h₁ => .ok (Nat.le_of_eq h₁.symm)
    refine (outcome_trivial _).bind fun temp _ => ?_
    refine (uses_takeOver s root temp).bind fun s₁ h₁ => ?_
    refine (ih s₁ _ _).bind fun q hq => ?_
    exact (uses_restore _ _).mono fun q' hq' => by rw [hq']; exact Nat.le_trans h₁ hq

/-- One of several occurrences goes without a copy. -/
theorem uses_delete_some (t : CountTree Loc) (w : Word) : ∀ {fuel : Nat} {F : Multiset Cell}, Owns s t F →
    1 < (words t).find w → Uses (· = s.scm.usedBytes) (delete fuel s (ptr t) (.client w.bytes)) := by
  induction t with
  | nil =>
    intro fuel F _ hfind
    exact absurd hfind (Nat.not_lt_zero 1)
  | node d c a l r ihl ihr =>
    intro fuel F h hfind
    cases fuel with
    | zero => exact .error trivial
    | succ fuel =>
      rw [delete, ptr_node, if_neg h.shaped.2.2.1.1, h.shaped.1]
      by_cases hne : a.str = 0
      · simp only [strAt_null hne, ok_bind, error_bind, Str.get]
        exact .error trivial
      simp only [h.strAt hne, ok_bind, Str.get]
      rw [words_node, find] at hfind
      rcases lt_trichotomy w a.word with hlt | he | hgt
      · rw [if_neg hlt.ne, if_pos hlt] at hfind
        rw [if_pos (Word.strcmp_lt.mpr hlt)]
        refine (@ihl fuel _ h.left hfind).bind fun q hq => ?_
        exact (uses_restore _ _).mono fun q' hq' => by rw [hq']; exact hq
      · rw [if_pos he] at hfind
        rw [if_neg (fun hs => (Word.strcmp_lt.mp hs).ne he), if_neg (fun hs => (Word.strcmp_gt.mp hs).ne' he),
          if_pos hfind]
        exact (uses_restore _ _).mono fun q hq => hq.trans (used_put _ _)
      · rw [if_neg hgt.ne', if_neg hgt.not_gt] at hfind
        rw [if_neg (fun hs => hgt.not_gt (Word.strcmp_lt.mp hs)), if_pos (Word.strcmp_gt.mpr hgt)]
        refine (@ihr fuel _ h.right hfind).bind fun q hq => ?_
        exact (uses_restore _ _).mono fun q' hq' => by rw [hq']; exact hq

theorem used_uncount (s : AvlSt) (n : Int) : (uncount s n).scm.usedBytes = s.scm.usedBytes := by
  unfold uncount
  simp only
  split <;> rfl

theorem uses_avlDelete (h : Holding s t) (w : Word) (fuel : Nat) :
    Uses (fun u => s.scm.usedBytes ≤ u ∧ (1 < (words t).find w → u = s.scm.usedBytes)) (avlDelete fuel s w.bytes) := by
  rw [avlDelete, if_neg w.nonempty]
  refine (outcome_trivial _).bind fun count _ => ?_
  simp only
  split
  · exact .error trivial
  obtain ⟨ho, hp, -, hst⟩ := h.leaky.uncount_spec (toInt32 count)
  have hused := used_uncount s (toInt32 count)
  rw [hp, hst, ← hused]
  generalize uncount s (toInt32 count) = s₁ at ho ⊢
  refine Outcome.bind ?_ fun q hq => .ok hq
  by_cases hmany : 1 < (words t).find w
  · exact (uses_delete_some t w ho hmany).mono fun q hq => ⟨Nat.le_of_eq hq.symm, fun _ => hq⟩
  · exact (uses_delete _ _ _ _).mono fun q hq => ⟨hq, fun h1 => absurd h1 hmany⟩

/-! ## Cycles -/

/-- The word is inserted and deleted, `k` times. -/
def cycles (w : Word) : Nat → List Op
  | 0 => []
  | k + 1 => .insert w :: .delete w :: cycles w k

/-- However often the word is inserted and deleted: there is room, and the used bytes stay
    within a bound. -/
def Bounded (fuel : Nat) (s : AvlSt) (w : Word) : Prop :=
  ∃ b, ∀ k, Outcome (fun e => ¬ Full e) (run fuel s (cycles w k)) fun s' => s'.scm.usedBytes ≤ b

theorem find_insert_self (h : Holding s t) (w : Word) : ((words t).insert next w).find w =
    if (words t).present w then next ((words t).find w) else 1 := by
  rw [find_insert h.ordered, if_pos rfl]

theorem step_insert (h : Holding s t) (w : Word) (hfuel : 120 ≤ fuel) :
    Outcome (Missing (words t) w) (step fuel s (.insert w)) fun s' => ∃ t', Holding s' t' ∧
      words t' = (words t).insert next w ∧
      s.scm.usedBytes + (if (words t).present w then 0 else w.bytes.length + 17) ≤ s'.scm.usedBytes ∧
      ((words t).present w = true → s'.scm.usedBytes = s.scm.usedBytes) := by
  have hdelta := h.owns.delta_le h.avl
  refine ((h.insert_spec w (by omega)).both (uses_insert h w fuel)).bind ?_
  intro q hq
  obtain ⟨r, s'⟩ := q
  obtain ⟨⟨-, t', h', hw, -⟩, hgrow, hkeep⟩ := hq
  exact .ok ⟨t', h', hw, hgrow, hkeep⟩

theorem step_delete (h : Holding s t) (w : Word) (hfuel : 120 ≤ fuel) (hc : toInt32 ((words t).find w) ≠ 0) :
    Outcome (Spent (words t) w) (step fuel s (.delete w)) fun s' => ∃ t', Holding s' t' ∧
      words t' = (words t).erase w ∧ s.scm.usedBytes ≤ s'.scm.usedBytes ∧
      (1 < (words t).find w → s'.scm.usedBytes = s.scm.usedBytes) := by
  have hdelta := h.owns.delta_le h.avl
  refine ((h.delete_spec w (by omega) hc).both (uses_avlDelete h w fuel)).bind ?_
  intro q hq
  obtain ⟨r, s'⟩ := q
  obtain ⟨⟨-, t', h', hw, -⟩, hgrow, hkeep⟩ := hq
  exact .ok ⟨t', h', hw, hgrow, hkeep⟩

/-- While the word is there, its cycles use no memory. -/
theorem run_cycles_present (hfuel : 120 ≤ fuel) : ∀ (k : Nat) {s : AvlSt} {t : CountTree Loc}, Holding s t →
    1 ≤ (words t).find w →
    Outcome (fun e => ¬ Full e) (run fuel s (cycles w k)) fun s' => s'.scm.usedBytes = s.scm.usedBytes := by
  intro k
  induction k with
  | zero => exact fun _ _ => .ok rfl
  | succ k ih =>
    intro s t h hpos
    have hpres := present_of_find (by omega : (words t).find w ≠ 0)
    obtain ⟨s₁, hs₁, t₁, h₁, hw₁, -, hkeep⟩ := (step_insert h w hfuel).exists_ok fun e _ he => by
      have hmiss := he.2
      rw [hpres] at hmiss
      cases hmiss
    have hused₁ := hkeep hpres
    have hfind : (words t₁).find w = next ((words t).find w) := by rw [hw₁, find_insert_self h, if_pos hpres]
    rw [cycles, run, hs₁, ok_bind, run]
    have hdelta := h₁.owns.delta_le h₁.avl
    by_cases hzero : toInt32 ((words t₁).find w) = 0
    · -- `avl_delete` takes the word for missing
      rw [step, h₁.delete_absent (by omega) hzero]
      refine .error fun he => ?_
      rcases he with he | he <;> cases he
    -- the count has not wrapped, since it is not 0
    have hlt := h.owns.shaped.find_lt w
    have hmany : 1 < (words t₁).find w := by
      rw [hfind, next] at hzero ⊢
      by_contra hle
      have h0 : ((words t).find w + 1) % 2 ^ 64 = 0 := by omega
      rw [h0] at hzero
      exact hzero rfl
    obtain ⟨s₂, hs₂, t₂, h₂, hw₂, -, hkeep₂⟩ := (step_delete h₁ w hfuel hzero).exists_ok fun e _ he => by
      have := he.2
      omega
    rw [hs₂, ok_bind, ← hused₁, ← hkeep₂ hmany]
    refine ih h₂ ?_
    rw [hw₂, find_erase h₁.ordered, if_pos rfl]
    omega

/-- One cycle of a word whose count is 0. -/
theorem cycle_grows (hfuel : 120 ≤ fuel) (h : Holding s t) (h0 : (words t).find w = 0) :
    Outcome Full (run fuel s (cycles w 1)) fun s' => ∃ t', Holding s' t' ∧ (words t').present w = false ∧
      s.scm.usedBytes + (if (words t).present w then 0 else w.bytes.length + 17) ≤ s'.scm.usedBytes := by
  rw [cycles, cycles, run]
  refine ((step_insert h w hfuel).weaken fun e he => he.1).bind ?_
  intro s₁ hs₁
  obtain ⟨t₁, h₁, hw₁, hgrow, -⟩ := hs₁
  have hone : (words t₁).find w = 1 := by
    rw [hw₁, find_insert_self h, h0]
    split <;> rfl
  rw [run]
  refine ((step_delete h₁ w hfuel (by rw [hone]; decide)).weaken fun e he => he.1).bind ?_
  intro s₂ hs₂
  obtain ⟨t₂, h₂, hw₂, hle, -⟩ := hs₂
  exact .ok ⟨t₂, h₂, by rw [hw₂, present_erase h₁.ordered hone], Nat.le_trans hgrow hle⟩

theorem cycles_succ (w : Word) (k : Nat) : cycles w (k + 1) = cycles w 1 ++ cycles w k := rfl

/-- `run` of one cycle, then of the others. -/
theorem run_cycles_succ (fuel : Nat) (s : AvlSt) (w : Word) (k : Nat) :
    run fuel s (cycles w (k + 1)) = run fuel s (cycles w 1) >>= fun s => run fuel s (cycles w k) := by
  cases h : run fuel s (cycles w 1) with
  | ok s₁ => exact run_append _ h
  | error e =>
    rw [cycles_succ]
    exact run_append_error _ h

/-- Every cycle of a word that is not there makes a new string. -/
theorem run_cycles_absent (hfuel : 120 ≤ fuel) : ∀ (k : Nat) {s : AvlSt} {t : CountTree Loc}, Holding s t →
    (words t).present w = false →
    Outcome Full (run fuel s (cycles w k)) fun s' => s.scm.usedBytes + 17 * k ≤ s'.scm.usedBytes := by
  intro k
  induction k with
  | zero => exact fun _ _ => .ok (Nat.le_refl _)
  | succ k ih =>
    intro s t h habs
    rw [run_cycles_succ]
    refine (cycle_grows hfuel h (find_of_absent habs)).bind ?_
    intro s₁ hs₁
    obtain ⟨t₁, h₁, habs₁, hgrow⟩ := hs₁
    rw [habs, if_neg Bool.false_ne_true] at hgrow
    apply (ih h₁ habs₁).mono
    intro s' hs'
    omega

theorem Holding.bounded_iff (h : Holding s t) (hfuel : 120 ≤ fuel) (w : Word) :
    Bounded fuel s w ↔ 1 ≤ (words t).find w := by
  constructor
  · rintro ⟨b, hb⟩
    by_contra h0
    have hrun : Outcome Full (run fuel s (cycles w (b + 2))) fun s' => 17 * (b + 1) ≤ s'.scm.usedBytes := by
      rw [run_cycles_succ]
      refine (cycle_grows hfuel h (by omega)).bind ?_
      intro s₁ hs₁
      obtain ⟨t₁, h₁, habs, -⟩ := hs₁
      exact (run_cycles_absent hfuel (b + 1) h₁ habs).mono fun s' hs' => by omega
    have hle := hb (b + 2)
    generalize run fuel s (cycles w (b + 2)) = r at hrun hle
    cases hrun with
    | ok hgrown =>
      cases hle with
      | ok hle => omega
    | error he =>
      cases hle with
      | error hne => exact hne he
  · intro hpos
    exact ⟨s.scm.usedBytes, fun k => (run_cycles_present hfuel k h hpos).mono fun s' hs' => Nat.le_of_eq hs'⟩

/-! ## Reachable heaps and stores -/

/-- In every heap that a run of calls leaves, a request for `n` bytes while a block of `n`
    bytes is free is served from a free block, without new memory, iff it is a `scm_malloc`;
    in every store that a run leaves, cycles of a word are bounded iff the word is there. -/
theorem freed_memory_is_reused_iff (fuel size : Nat) (hs : vmStart + size < 2 ^ 64) (file : Mem) (hsize : 24 ≤ size)
    (hfuel : 120 ≤ fuel) (heap : ScmSt) (bs : List Blk) (hreach : Reach size hs file heap bs) (c : Call) (n : Nat)
    (hc : asks c = some n) (hfree : ∃ b ∈ bs, b.inUse = false ∧ n ≤ b.size) (ops : List Op) (s : AvlSt) (w : Word)
    (m : Nat) (hrun : session fuel size hs file ops = .ok s) (hm : avlExists fuel s w.bytes = .ok m) :
    (Recycled heap bs n c ↔ ∃ n, c = .malloc n) ∧ (Bounded fuel s w ↔ 1 ≤ m) := by
  refine ⟨recycled_iff (hreach.repr hsize) hc hfree, ?_⟩
  have hholds := session_holding fuel size hs file ops hfuel
  rw [hrun] at hholds
  cases hholds with
  | ok hh =>
    obtain ⟨t, h, -⟩ := hh
    have hdelta := h.owns.delta_le h.avl
    rw [h.exists_spec (by omega)] at hm
    cases hm
    exact h.bounded_iff hfuel w

/-- A heap with one block, which is free. -/
theorem reach_freed : ∃ s, Reach 4096 (by decide) blank s [⟨vmStart + 40, 40, false⟩] ∧ s.usedBytes = 56 := by
  have h0 : Reach 4096 (by decide) blank _ [] := .start
  have h1 := Reach.malloc h0 (fun _ => by decide)
    (show scmMalloc (scmOpen 4096 (by decide) blank true) 40 = .ok (vmStart + 40, _) from rfl)
  obtain ⟨s, hs, hfreed⟩ := free_released (h1.repr (by decide)) (vmStart + 40)
  exact ⟨s, .free h1 hs, hfreed.used⟩

theorem freed_memory_is_reused_iff_few_words : ∃ heap s, Recycled heap [⟨vmStart + 40, 40, false⟩] 40 (.malloc 40) ∧
    session 120 4096 (by decide) blank fewWords = .ok s ∧ Bounded 120 s (.rep 97 (by decide) 0) := by
  obtain ⟨heap, hheap, -⟩ := reach_freed
  obtain ⟨s, hs, hone⟩ := fewWords_a
  obtain ⟨hrec, hbound⟩ := freed_memory_is_reused_iff 120 4096 (by decide) blank (by decide) (by decide) heap _ hheap
    (.malloc 40) 40 rfl ⟨_, List.mem_singleton_self _, rfl, Nat.le_refl 40⟩ fewWords s (.rep 97 (by decide) 0) 1 hs hone
  exact ⟨heap, s, hrec.mpr ⟨40, rfl⟩, hs, hbound.mpr (Nat.le_refl 1)⟩

/-- A string of one character, while a block of 40 bytes is free. -/
theorem a_string_takes_new_memory : ¬ ∀ (s : ScmSt) (bs : List Blk) (str : List UInt8),
    Reach 4096 (by decide) blank s bs → (∃ b ∈ bs, b.inUse = false ∧ str.length + 1 ≤ b.size) →
      (scmStrdup s str).2.usedBytes = s.usedBytes := by
  intro hall
  obtain ⟨s, hs, hused⟩ := reach_freed
  have hsame := hall s _ [97] hs ⟨_, List.mem_singleton_self _, rfl, by decide⟩
  have hgrown : (scmStrdup s [97]).2.usedBytes = (s.usedBytes + 18) % 2 ^ 64 := rfl
  omega

end Cs238p.Avl
