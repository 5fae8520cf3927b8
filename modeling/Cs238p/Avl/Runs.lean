/-
  Cs238p.Avl.Runs — runs of the word store from an empty one.

  Proved over every sequence of insertions and deletions: where every block fits the region,
  no `NULL` is dereferenced, and in every state that is reached depths are heights, the
  subtrees of every node differ by at most 1, and a logarithmic recursion depth is enough
  (`stays_balanced`); and where deleted words are there and multiplicities stay below 2^31,
  the store is the multiset of its words (`store_is_multiset`).
-/
import Cs238p.Avl.Calls

namespace Cs238p.Avl

open ByteMemory Scm AvlTree CountTree

inductive Op where
  | insert (w : Word)
  | delete (w : Word)
  deriving DecidableEq

def step (fuel : Nat) (s : AvlSt) : Op → Except Stop AvlSt
  | .insert w => do
    let (_, s) ← avlInsert fuel s w.bytes
    return s
  | .delete w => do
    let (_, s) ← avlDelete fuel s w.bytes
    return s

def run (fuel : Nat) : AvlSt → List Op → Except Stop AvlSt
  | s, [] => .ok s
  | s, op :: ops => do
    let s ← step fuel s op
    run fuel s ops

/-- A run from an empty store. -/
def session (fuel size : Nat) (hs : vmStart + size < 2 ^ 64) (file : Mem) (ops : List Op) : Except Stop AvlSt := do
  match ← avlOpen size hs file true [] with
  | none => .error .null
  | some s => run fuel s ops

variable {s s' : AvlSt} {t t' : CountTree Loc} {w : Word} {fuel size : Nat} {hs : vmStart + size < 2 ^ 64} {file : Mem}
  {B : Multiset Word} {op : Op} {ops : List Op}

theorem run_append {s' : AvlSt} : ∀ {s : AvlSt} (ops : List Op) {ops' : List Op}, run fuel s ops = .ok s' →
    run fuel s (ops ++ ops') = run fuel s' ops'
  | _, [], _, h => by
    cases h
    rfl
  | s, op :: ops, _, h => by
    rw [List.cons_append, run]
    rw [run] at h
    cases hs : step fuel s op with
    | error e =>
      rw [hs] at h
      cases h
    | ok s₁ =>
      rw [hs] at h
      exact run_append ops h

theorem run_append_error {e : Stop} : ∀ {s : AvlSt} (ops : List Op) {ops' : List Op}, run fuel s ops = .error e →
    run fuel s (ops ++ ops') = .error e
  | _, [], _, h => by cases h
  | s, op :: ops, _, h => by
    rw [List.cons_append, run]
    rw [run] at h
    cases hs : step fuel s op with
    | error e' =>
      rw [hs] at h
      exact h
    | ok s₁ =>
      rw [hs] at h
      exact run_append_error ops h

theorem session_append {ops' : List Op}
    (h : session fuel size hs file ops = .ok s) : session fuel size hs file (ops ++ ops') = run fuel s ops' := by
  unfold session at h ⊢
  cases ho : avlOpen size hs file true [] with
  | error e =>
    rw [ho] at h
    cases h
  | ok r =>
    rw [ho] at h
    cases r with
    | none => cases h
    | some s₀ => exact run_append ops h

/-! ## An empty store -/

/-- The first block of a region is at `scm_mbase`. -/
theorem malloc_first (hu : s.scm.usedBytes = 0) (hf : s.fails = []) (n : Nat) :
    Outcome Full (malloc s n) fun q => q.1 = base + 16 ∧ 40 + n ≤ s.scm.size := by
  unfold malloc scmMalloc
  have hfind : findFree s.scm.mem n (scmMbase s.scm + s.scm.usedBytes) (s.scm.usedBytes + 1) (scmMbase s.scm) =
    .ok none := by
    simp [scmMbase, hu, findFree]
  rw [hfind]
  simp only
  by_cases hsize : (s.scm.usedBytes + n + 16) % 2 ^ 64 > s.scm.size
  · rw [if_pos hsize, allocate, hf]
    exact .error (Or.inl rfl)
  · rw [if_neg hsize, allocate_ok (by rw [hf]; rfl)]
    by_cases hend : vmStart + (extend s.scm n ((s.scm.mem.store (base + s.scm.usedBytes) 8 1).store
        (base + s.scm.usedBytes + 8) 8 n)).size < base + s.scm.usedBytes + 16 + n
    · rw [if_pos hend]
      exact .error (Or.inr rfl)
    · rw [if_neg hend]
      refine .ok ⟨by simp only [hu], ?_⟩
      change ¬ vmStart + s.scm.size < base + s.scm.usedBytes + 16 + n at hend
      simp only [base] at hend
      omega

theorem stateAt_zeros (m : Mem) (p : Nat) : stateAt (m.write p (List.replicate 24 0)) p = ⟨0, 0, 0⟩ := by
  simp (disch := omega) only [stateAt, Mem.load_zeros]

theorem open_spec : Outcome Full (avlOpen size hs file true []) fun r => ∃ s, r = some s ∧ Holding s nil ∧
    avlItems s = 0 ∧ avlUnique s = 0 := by
  unfold avlOpen
  rw [open_truncate]
  rw [if_neg (by simp [scmUtilized])]
  let s : AvlSt := ⟨⟨size, 0, 0, truncated file, hs⟩, 0, []⟩
  have hfirst := (malloc_first (s := s) rfl rfl 24).and fun q hq =>
    (malloc_spec (s := s) (F := 0) (by
      have := holds_open size hs file (by have : 40 + 24 ≤ size := hq.2; omega)
      rwa [open_truncate] at this) rfl 24).weaken fun _ he => he.1
  refine hfirst.bind ?_
  intro q hq
  obtain ⟨p, s1⟩ := q
  obtain ⟨⟨hp, -⟩, -, hh, hf⟩ := hq
  simp only at hp
  subst hp
  obtain ⟨hp0, hp1⟩ := holds_addr hh
  have hused := (hh.bounds (show (base + 16, 24) ∈ {(base + 16, 24)} + (0 : Multiset Cell) by simp)).2
  simp only [if_neg hp0]
  obtain ⟨hh2, hf2⟩ := holds_put hh (within_zeros s1.mem (base + 16) 24)
  have hbase : scmMbase (s1.put (s1.mem.write (base + 16) (List.replicate 24 0))).scm = base + 16 := by
    rw [scmMbase, if_pos]
    show s1.scm.usedBytes ≠ 0
    simp only at hused
    omega
  rw [if_pos hbase.symm]
  have hrec := stateAt_zeros s1.mem (base + 16)
  refine .ok ⟨_, rfl, ⟨rfl, hf.fails rfl, ⟨?_, trivial⟩, ?_, trivial, List.Pairwise.nil, trivial⟩, ?_, ?_⟩
  · rw [cells_nil, zero_add]
    exact add_zero ({(base + 16, 24)} : Multiset Cell) ▸ hh2
  · exact congrArg State.root hrec
  · exact congrArg State.items hrec
  · exact congrArg State.unique hrec

/-! ## Balance -/

/-- Want of room, or a deletion that `avl_delete` does not accept. -/
def Refused (e : Stop) : Prop := Full e ∨ e = .assert

/-- What a call does to the words. -/
def Op.grow (T : CountTree Word) : Op → CountTree Word
  | .insert w => T.insert next w
  | .delete w => T.erase w

theorem step_holding (h : Holding s t) (hfuel : t.delta + 1 < fuel) (op : Op) :
    Outcome Refused (step fuel s op) fun s' => ∃ t', Holding s' t' ∧ words t' = op.grow (words t) := by
  cases op with
  | insert w =>
    refine ((h.insert_spec w hfuel).weaken fun _ he => Or.inl he.1).bind ?_
    intro q hq
    obtain ⟨r, s'⟩ := q
    obtain ⟨-, t', h', hw, -⟩ := hq
    exact .ok ⟨t', h', hw⟩
  | delete w =>
    by_cases hc : toInt32 ((words t).find w) = 0
    · rw [step, h.delete_absent hfuel hc]
      exact .error (Or.inr rfl)
    · refine ((h.delete_spec w hfuel hc).weaken fun _ he => Or.inl he.1).bind ?_
      intro q hq
      obtain ⟨r, s'⟩ := q
      obtain ⟨-, t', h', hw, -⟩ := hq
      exact .ok ⟨t', h', hw⟩

theorem run_holding (hfuel : 120 ≤ fuel) : ∀ {s : AvlSt} {t : CountTree Loc} (ops : List Op), Holding s t →
    Outcome Refused (run fuel s ops) fun s' => ∃ t', Holding s' t' ∧ words t' = ops.foldl Op.grow (words t)
  | _, t, [], h => .ok ⟨t, h, rfl⟩
  | _, t, op :: ops, h => by
    have hdelta := h.owns.delta_le h.avl
    refine (step_holding h (by omega) op).bind ?_
    intro s' h
    obtain ⟨t', h', hw⟩ := h
    rw [List.foldl_cons, ← hw]
    exact run_holding hfuel ops h'

/-- From an empty store, a run leaves the tree of its words. -/
theorem session_holding (fuel size : Nat) (hs : vmStart + size < 2 ^ 64) (file : Mem) (ops : List Op)
    (hfuel : 120 ≤ fuel) :
    Outcome Refused (session fuel size hs file ops) fun s => ∃ t, Holding s t ∧ words t = ops.foldl Op.grow nil := by
  refine (open_spec.weaken fun _ => Or.inl).bind ?_
  intro r hh
  obtain ⟨s, rfl, h, -⟩ := hh
  exact run_holding hfuel ops h

theorem Stored.sub {m : Mem} {u : CountTree Loc} (h : Stored m t) (hu : Sub u t) : Stored m u := by
  induction hu with
  | refl => exact h
  | left _ ih => exact ih h.2.2.2.2.1
  | right _ ih => exact ih h.2.2.2.2.2

/-- The words that are in the tree. -/
def uniqueWords (t : CountTree Loc) : Finset Word := ((words t).toList.map Prod.fst).toFinset

theorem card_uniqueWords (h : (words t).Ordered) : (uniqueWords t).card = t.size := by
  have hnodup : ((words t).toList.map Prod.fst).Nodup := List.pairwise_map.mpr (h.imp fun hlt => ne_of_lt hlt)
  rw [uniqueWords, List.toFinset_card_of_nodup hnodup, List.length_map, ← size_eq_length, words, size_map]

/-- The tree `t` is the one in the store, its depths are heights, subtrees differ by at most
    1, and a recursion depth that is logarithmic in the number of words is enough. -/
structure Balanced (s : AvlSt) (t : CountTree Loc) : Prop where
  tree : (stateAt s.mem s.state).root = ptr t ∧ Stored s.mem t
  depths : ∀ d c a l r, Sub (node d c a l r) t → (nodeAt s.mem (Loc.addr a)).depth = height (node d c a l r)
  balances : ∀ d c a l r, Sub (node d c a l r) t → (height l - height r).natAbs ≤ 1
  fib : Nat.fib ((delta s.mem (ptr t) + 3).toNat) - 1 ≤ (uniqueWords t).card
  shallow : ∀ (w : Word) (fuel : Nat), 2 * Nat.log 2 ((uniqueWords t).card + 1) + 1 < fuel →
    Outcome Full (avlInsert fuel s w.bytes) (fun _ => True) ∧ Outcome Refused (avlDelete fuel s w.bytes)
      (fun _ => True) ∧
      ∃ n, avlExists fuel s w.bytes = .ok n

theorem Holding.balanced (h : Holding s t) : Balanced s t := by
  have hcard := card_uniqueWords h.ordered
  have hstored := h.owns.shaped.stored h.whole
  refine ⟨⟨by rw [h.state, h.root], hstored⟩, ?_, ?_, ?_, ?_⟩
  · intro d c a l r hu
    rw [(hstored.sub hu).1]
    exact (h.avl.sub hu).delta_eq
  · intro d c a l r hu
    obtain ⟨-, hd, hl, hr⟩ := h.avl.sub hu
    rw [← hl.delta_eq, ← hr.delta_eq]
    exact hd
  · have := fib_le_size h.avl
    rw [h.owns.shaped.delta_eq, hcard]
    omega
  · intro w fuel hfuel
    have hlog := depth_le_log h.avl
    rw [hcard] at hfuel
    refine ⟨((h.insert_spec w (by omega)).mono fun _ _ => trivial).weaken fun _ he => he.1, ?_, _, h.exists_spec (by omega)⟩
    by_cases hc : toInt32 ((words t).find w) = 0
    · rw [h.delete_absent (by omega) hc]
      exact .error (Or.inr rfl)
    · exact ((h.delete_spec w (by omega) hc).mono fun _ _ => trivial).weaken fun _ he => Or.inl he.1

/-- From an empty store, whatever is inserted and deleted. -/
theorem stays_balanced (fuel size : Nat) (hs : vmStart + size < 2 ^ 64) (file : Mem) (ops : List Op)
    (hfuel : 120 ≤ fuel) :
    Outcome Refused (session fuel size hs file ops) fun s => ∃ t, Balanced s t := by
  apply (session_holding fuel size hs file ops hfuel).mono
  intro s h
  obtain ⟨t, h, -⟩ := h
  exact ⟨t, h.balanced⟩

/-- A file of zeros. -/
def blank : Mem := ⟨fun _ => 0⟩

/-- The words "b", "a" and again "b", which is deleted once. -/
def fewWords : List Op :=
  [.insert (.rep 98 (by decide) 0), .insert (.rep 97 (by decide) 0), .insert (.rep 98 (by decide) 0),
    .delete (.rep 98 (by decide) 0)]

theorem session_fewWords : (session 120 4096 (by decide) blank fewWords).map avlUnique = .ok 2 := by decide +kernel

/-- Of these "a" is there once. -/
theorem fewWords_a : ∃ s, session 120 4096 (by decide) blank fewWords = .ok s ∧ avlExists 120 s [97] = .ok 1 := by
  obtain ⟨s, hs, hc⟩ := exists_ok_of_map (show (session 120 4096 (by decide) blank fewWords).map
    (fun s => (avlExists 120 s [97]).toOption) = .ok (some 1) by decide +kernel)
  exact ⟨s, hs, ok_of_toOption hc⟩

theorem stays_balanced_few_words : ∃ s, session 120 4096 (by decide) blank fewWords = .ok s ∧ ∃ t, Balanced s t := by
  obtain ⟨s, hs, -⟩ := exists_ok_of_map session_fewWords
  obtain ⟨s', hs', ht⟩ := (stays_balanced 120 4096 (by decide) blank fewWords (by decide)).exists_ok
    fun e he => by rw [hs] at he; cases he
  exact ⟨s', hs', ht⟩

/-! ## The store as a multiset -/

/-- What a call does to the multiset. -/
def Op.apply (B : Multiset Word) : Op → Multiset Word
  | .insert w => w ::ₘ B
  | .delete w => B.erase w

/-- The multiset after a run from `B`. -/
def contents (B : Multiset Word) (ops : List Op) : Multiset Word := ops.foldl Op.apply B

/-- Deleted words are there, and multiplicities stay below 2^31. -/
def Legal : Multiset Word → List Op → Prop
  | _, [] => True
  | B, .insert w :: ops => B.count w + 1 < 2 ^ 31 ∧ Legal (w ::ₘ B) ops
  | B, .delete w :: ops => w ∈ B ∧ Legal (B.erase w) ops

theorem count_contents (w : Word) : ∀ {B : Multiset Word} {ops : List Op}, Legal B ops →
    (contents B ops).count w + ops.count (.delete w) = B.count w + ops.count (.insert w)
  | B, [], _ => rfl
  | B, .insert v :: ops, h => by
    have ih := count_contents w h.2
    rw [contents, List.foldl_cons, Op.apply, ← contents]
    rw [Multiset.count_cons] at ih
    simp only [List.count_cons, beq_iff_eq, Op.insert.injEq, reduceCtorEq, if_false]
    by_cases hv : w = v
    · rw [if_pos hv] at ih
      rw [if_pos hv.symm]; omega
    · rw [if_neg hv] at ih
      rw [if_neg (Ne.symm hv)]; omega
  | B, .delete v :: ops, h => by
    have ih := count_contents w h.2
    rw [contents, List.foldl_cons, Op.apply, ← contents]
    simp only [List.count_cons, beq_iff_eq, Op.delete.injEq, reduceCtorEq, if_false]
    by_cases hv : w = v
    · subst hv
      have hpos := Multiset.count_pos.mpr h.1
      rw [Multiset.count_erase_self] at ih
      rw [if_pos rfl]; omega
    · rw [Multiset.count_erase_of_ne hv] at ih
      rw [if_neg (Ne.symm hv)]; omega

/-- The store holds the multiset `B`. -/
structure Counted (s : AvlSt) (t : CountTree Loc) (B : Multiset Word) : Prop where
  holding : Holding s t
  positive : (words t).Positive
  bag : bag (words t) = B
  small : ∀ w, B.count w < 2 ^ 31
  items : avlItems s = B.card % 2 ^ 64
  unique : avlUnique s = B.toFinset.card

/-- The number of nodes is that of distinct words. -/
theorem card_toFinset (h : Holding s t) (hpos : (words t).Positive) (hb : bag (words t) = B) :
    B.toFinset.card = t.size := by
  rw [← hb, CountTree.bag, ← length_eq_card h.ordered hpos, ← size_eq_length, words, size_map]

theorem toInt32_small {n : Nat} (h : n < 2 ^ 31) : toInt32 n = n := by
  rw [toInt32, BitVec.toInt_ofNat']
  exact Int.bmod_eq_of_le (by omega) (by omega)

theorem insert_counted (h : Counted s t B) (hfuel : t.delta + 1 < fuel) (hop : Legal B [.insert w]) :
    Outcome Full (step fuel s (.insert w)) fun s' => ∃ t', Counted s' t' (w ::ₘ B) := by
  obtain ⟨hh, hpos, hb, hsmall, hitems, hunique⟩ := h
  have hsize := hh.owns.size_lt
  have hcard := card_toFinset hh hpos hb
  have hnext : ∀ c, (w, c) ∈ (words t).toList → next c = c + 1 := fun c hc => by
    have hcount : B.count w = c := hb ▸ count_of_mem hh.ordered hc
    have := hop.1
    exact Nat.mod_eq_of_lt (by omega)
  refine ((hh.insert_spec w hfuel).weaken fun _ he => he.1).bind ?_
  intro q hq
  obtain ⟨r, s'⟩ := q
  obtain ⟨-, t', h', hw, hi, hu⟩ := hq
  have hpos' : (words t').Positive := hw ▸ hpos.insert hnext
  have hb' : CountTree.bag (words t') = w ::ₘ B := by rw [hw, bag_insert hnext, hb]
  refine .ok ⟨t', h', hpos', hb', ?_, ?_, ?_⟩
  · intro v
    rw [Multiset.count_cons]
    by_cases hv : v = w
    · rw [if_pos hv, hv]; exact hop.1
    · rw [if_neg hv]; exact hsmall v
  · rw [hi, hitems, next, Multiset.card_cons]; omega
  · have hcard' := card_toFinset h' hpos' hb'
    have hsize' := h'.owns.size_lt
    have hpres : (words t).present w = true ↔ w ∈ B := hb ▸ present_iff_mem hh.ordered hpos w
    rw [hu, hunique, fresh]
    by_cases hm : w ∈ B
    · rw [if_pos (hpres.mpr hm), Multiset.toFinset_cons, Finset.insert_eq_of_mem (Multiset.mem_toFinset.mpr hm)]
      omega
    · rw [if_neg (fun hp => hm (hpres.mp hp)), Multiset.toFinset_cons,
        Finset.card_insert_of_notMem (fun hx => hm (Multiset.mem_toFinset.mp hx))]
      omega

theorem delete_counted (h : Counted s t B) (hfuel : t.delta + 1 < fuel) (hmem : w ∈ B) :
    Outcome Full (step fuel s (.delete w)) fun s' => ∃ t', Counted s' t' (B.erase w) := by
  obtain ⟨hh, hpos, hb, hsmall, hitems, hunique⟩ := h
  have hsize := hh.owns.size_lt
  have hcard := card_toFinset hh hpos hb
  have hfind : (words t).find w = B.count w := hb ▸ find_eq hh.ordered w
  have hcpos := Multiset.count_pos.mpr hmem
  have hint : toInt32 ((words t).find w) = B.count w := by rw [hfind, toInt32_small (hsmall w)]
  refine ((hh.delete_spec w hfuel (by rw [hint]; omega)).weaken fun _ he => he.1).bind ?_
  intro q hq
  obtain ⟨r, s'⟩ := q
  obtain ⟨-, t', h', hw, hi, hu⟩ := hq
  have hpos' : (words t').Positive := hw ▸ hpos.erase w
  have hb' : CountTree.bag (words t') = B.erase w := by rw [hw, bag_erase hh.ordered w, hb]
  refine .ok ⟨t', h', hpos', hb', ?_, ?_, ?_⟩
  · intro v
    exact lt_of_le_of_lt (Multiset.count_le_of_le v (Multiset.erase_le w B)) (hsmall v)
  · have hcardpos := Multiset.card_pos_iff_exists_mem.mpr ⟨w, hmem⟩
    rw [hi, hitems, prev, Multiset.card_erase_of_mem hmem, Nat.pred_eq_sub_one]; omega
  · have hfpos : 0 < B.toFinset.card := Finset.card_pos.mpr ⟨w, Multiset.mem_toFinset.mpr hmem⟩
    rw [hu, hint, hunique, card_toFinset_erase hmem]
    by_cases h1 : B.count w = 1
    · rw [if_pos (by rw [h1]; rfl), if_pos h1, prev]; omega
    · rw [if_neg (by omega), if_neg h1]

theorem step_counted (h : Counted s t B) (hfuel : t.delta + 1 < fuel) (hop : Legal B [op]) :
    Outcome Full (step fuel s op) fun s' => ∃ t', Counted s' t' (op.apply B) := by
  cases op with
  | insert w => exact insert_counted h hfuel hop
  | delete w => exact delete_counted h hfuel hop.1

theorem legal_cons (h : Legal B (op :: ops)) : Legal B [op] ∧ Legal (op.apply B) ops := by
  cases op with
  | insert w => exact ⟨⟨h.1, trivial⟩, h.2⟩
  | delete w => exact ⟨⟨h.1, trivial⟩, h.2⟩

theorem run_counted (hfuel : 120 ≤ fuel) : ∀ {s : AvlSt} {t : CountTree Loc} {B : Multiset Word} (ops : List Op),
    Counted s t B →
    Legal B ops → Outcome Full (run fuel s ops) fun s' => ∃ t', Counted s' t' (contents B ops)
  | _, t, _, [], h, _ => .ok ⟨t, h⟩
  | _, t, B, op :: ops, h, hlegal => by
    have hdelta := h.holding.owns.delta_le h.holding.avl
    obtain ⟨hop, hops⟩ := legal_cons hlegal
    refine (step_counted h (by omega) hop).bind ?_
    intro s' h
    obtain ⟨t', h'⟩ := h
    exact run_counted hfuel ops h' hops

theorem session_counted (fuel size : Nat) (hs : vmStart + size < 2 ^ 64) (file : Mem) (ops : List Op)
    (hfuel : 120 ≤ fuel) (hlegal : Legal 0 ops) :
    Outcome Full (session fuel size hs file ops) fun s => ∃ t, Counted s t (contents 0 ops) := by
  refine open_spec.bind ?_
  intro r hh
  obtain ⟨s, rfl, h, hi, hu⟩ := hh
  exact run_counted hfuel ops
    ⟨h, fun _ he => absurd he List.not_mem_nil, rfl, fun _ => by simp, by simp [hi], by simp [hu]⟩ hlegal

theorem card_contents_le : ∀ (B : Multiset Word) (ops : List Op), (contents B ops).card ≤ B.card + ops.length
  | _, [] => Nat.le_refl _
  | B, op :: ops => by
    have ih := card_contents_le (op.apply B) ops
    have hop : (op.apply B).card ≤ B.card + 1 := by
      cases op with
      | insert w => exact (Multiset.card_cons w B).le
      | delete w => exact le_trans (Multiset.card_le_card (Multiset.erase_le w B)) (Nat.le_succ _)
    rw [contents, List.foldl_cons, ← contents, List.length_cons]
    omega

theorem Counted.traverse (h : Counted s t B) (hfuel : t.delta + 1 < fuel) : ∃ L : List (Word × Nat),
    avlTraverse fuel s = .ok (L.map visit) ∧ L.Pairwise (fun x y => strcmp x.1.bytes y.1.bytes < 0) ∧
      ∀ w c, (w, c) ∈ L ↔ w ∈ B ∧ c = B.count w := by
  refine ⟨(words t).toList, h.holding.traverse_spec hfuel, h.holding.ordered.imp fun hlt => Word.strcmp_lt.mpr hlt,
    ?_⟩
  intro w c
  have hcount : ∀ {c}, (w, c) ∈ (words t).toList → B.count w = c := fun hc => h.bag ▸ count_of_mem h.holding.ordered hc
  constructor
  · intro hc
    have hpos := h.positive _ hc
    exact ⟨Multiset.count_pos.mp (by rw [hcount hc]; exact hpos), (hcount hc).symm⟩
  · intro h
    obtain ⟨hw, rfl⟩ := h
    obtain ⟨c, hc, -⟩ := mem_bagOf.mp (show w ∈ bagOf (words t).toList by rw [← CountTree.bag, h.bag]; exact hw)
    rw [hcount hc]; exact hc

/-- The store is the multiset of the words inserted and not deleted: `avl_exists` answers
    multiplicities, the counters are the number of words and of distinct words (the first
    one as an `uint64_t`), and `avl_traverse` visits every word once, in the order of
    `strcmp`. -/
theorem store_is_multiset (fuel size : Nat) (hs : vmStart + size < 2 ^ 64) (file : Mem) (ops : List Op)
    (hfuel : 120 ≤ fuel) (hlegal : Legal 0 ops) (hfits : ∀ e, session fuel size hs file ops = .error e → ¬ Full e) :
    ∃ s, session fuel size hs file ops = .ok s ∧
      (∀ w : Word, avlExists fuel s w.bytes = .ok ((contents 0 ops).count w) ∧
        (contents 0 ops).count w + ops.count (.delete w) = ops.count (.insert w)) ∧
      avlItems s = (contents 0 ops).card % 2 ^ 64 ∧ (ops.length < 2 ^ 64 → avlItems s = (contents 0 ops).card) ∧
      avlUnique s = (contents 0 ops).toFinset.card ∧
      ∃ L : List (Word × Nat), avlTraverse fuel s = .ok (L.map visit) ∧
        L.Pairwise (fun x y => strcmp x.1.bytes y.1.bytes < 0) ∧
        ∀ w c, (w, c) ∈ L ↔ w ∈ contents 0 ops ∧ c = (contents 0 ops).count w := by
  obtain ⟨s, hrun, t, h⟩ := (session_counted fuel size hs file ops hfuel hlegal).exists_ok hfits
  have hdelta := h.holding.owns.delta_le h.holding.avl
  refine ⟨s, hrun, fun w => ⟨?_, ?_⟩, h.items, ?_, h.unique, h.traverse (by omega)⟩
  · rw [h.holding.exists_spec (by omega), find_eq h.holding.ordered, h.bag]
  · have := count_contents w hlegal
    rwa [Multiset.count_zero, Nat.zero_add] at this
  · intro hlen
    have := card_contents_le 0 ops
    rw [Multiset.card_zero] at this
    rw [h.items, Nat.mod_eq_of_lt (by omega)]

theorem store_is_multiset_few_words : ∃ s, session 120 4096 (by decide) blank fewWords = .ok s ∧ avlItems s = 2 ∧
    avlUnique s = 2 ∧ avlExists 120 s [98] = .ok 1 := by
  obtain ⟨s, hs, -⟩ := exists_ok_of_map session_fewWords
  obtain ⟨s', hs', hex, -, hi, hu, -⟩ := store_is_multiset 120 4096 (by decide) blank fewWords (by decide)
    (by simp only [fewWords, Legal]; decide) fun e he => by rw [hs] at he; cases he
  exact ⟨s', hs', hi (by decide), hu, (hex (.rep 98 (by decide) 0)).1⟩

end Cs238p.Avl
