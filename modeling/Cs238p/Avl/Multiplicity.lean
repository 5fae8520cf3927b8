/-
  Cs238p.Avl.Multiplicity — deletions of words of any multiplicity.

  A node counts in 64 bits, but `avl_delete` keeps what `avl_exists` answers in an `int`:
  a multiplicity that is a multiple of 2^32 fails its assertion, and one that is 1 modulo
  2^32 is taken for the last occurrence, so that `avl_unique` goes down though the node
  stays (`a_multiplicity_is_narrowed`).

  The last occurrence of a word may go with a copy of the next one, which nothing keeps inside
  the mapping (`CopyFits`).

  Proved, of every store that insertions and deletions make: a deletion is exact on all other
  multiplicities, as long as that copy fits (`delete_exact_iff`).
-/
import Cs238p.Avl.Runs

namespace Cs238p.Avl

open ByteMemory Scm AvlTree CountTree

/-- One occurrence of `w`, of `c`, is gone and counted off, in 64 bits. -/
structure DeletedOne (fuel : Nat) (s s' : AvlSt) (w : Word) (c : Nat) : Prop where
  multiplicity : avlExists fuel s' w.bytes = .ok (c - 1)
  others : ∀ v : Word, v ≠ w → avlExists fuel s' v.bytes = avlExists fuel s v.bytes
  items : avlItems s' = prev (avlItems s)
  unique : avlUnique s' = if c = 1 then prev (avlUnique s) else avlUnique s

variable {s s' : AvlSt} {t : CountTree Loc} {w : Word} {fuel n : Nat}

theorem toInt32_eq_zero : toInt32 n = 0 ↔ n % 2 ^ 32 = 0 := by
  rw [toInt32, BitVec.toInt_ofNat']
  simp only [Int.bmod]
  omega

theorem toInt32_eq_one : toInt32 n = 1 ↔ n % 2 ^ 32 = 1 := by
  rw [toInt32, BitVec.toInt_ofNat']
  simp only [Int.bmod]
  omega

theorem prev_ne : prev n ≠ n := by
  unfold prev
  omega

/-! ## The copy of the next word -/

/-- The word that takes the place of the last occurrence of `item`: the next one, if the node
    has two children. -/
def successor (fuel : Nat) (s : AvlSt) (item : List UInt8) : Except Stop (Option (List UInt8)) := do
  let p ← seek s item fuel (stateAt s.mem s.state).root
  if p = 0 then return none
  else if (nodeAt s.mem p).left = 0 then return none
  else if (nodeAt s.mem p).right = 0 then return none
  else do
    let temp ← findMin s.mem fuel (nodeAt s.mem p).right
    let str ← s.strAt (nodeAt s.mem temp).item
    return some str

/-- Its copy ends inside the mapping. -/
def CopyFits (fuel : Nat) (s : AvlSt) (item : List UInt8) : Prop :=
  ∀ str, successor fuel s item = .ok (some str) → HasRoom s.scm str

theorem Holding.successor_spec (h : Holding s t) (hfuel : t.delta + 1 < fuel) (hc : (words t).find w = 1) :
    successor fuel s w.bytes = .ok (((words t).heir w).map Word.bytes) := by
  unfold successor
  obtain ⟨p, hp, -, hs⟩ := (@seek_spec s t _ w fuel h.owns h.avl hfuel).exists_ok fun e _ he => he.2 (h.whole.along w)
  rw [h.state, h.root, hp]
  simp only [ok_bind]
  rcases hs with ⟨-, -, hno⟩ | ⟨d, c, l, r, F, hs⟩
  · omega
  · obtain ⟨str, -, ho⟩ := hs.owns
    obtain ⟨hdl, hdr⟩ := sub_bounds hs.avl
    have hdepth := hs.depth
    have hnode : nodeAt s.mem p = ⟨d, c, str, ptr l, ptr r⟩ := ho.shaped.1
    have hc1 : ¬ 1 < c := by
      have := hs.find
      omega
    rw [if_neg ho.shaped.2.2.1.1, hnode, hs.heir, if_neg hc1]
    by_cases hl : l = nil
    · subst hl
      rw [ptr_nil, if_pos rfl]
      rfl
    rw [if_neg fun h0 => hl (ho.left.shaped.ptr_eq_zero.mp h0)]
    by_cases hr : r = nil
    · subst hr
      rw [ptr_nil, if_pos rfl, words_nil, joinKey_nil]
      rfl
    rw [if_neg fun h0 => hr (ho.right.shaped.ptr_eq_zero.mp h0)]
    obtain ⟨b, k, hm⟩ := exists_min hr
    have hmw : (words r).min? = some (b.word, k) := (min?_map _ _).trans (by rw [hm]; rfl)
    have hlw : words l ≠ nil := by
      intro h0
      cases l with
      | nil => exact hl rfl
      | node d' c' a' l' r' => cases h0
    rw [findMin_spec ho.right.shaped hs.avl.2.2.2 (show r.delta < fuel by omega) hm, ok_bind,
      (ho.right.shaped.min hm).1, ho.right.min_str hm ((hs.whole h.whole).min hm), joinKey_some hlw hmw]
    rfl

/-- The condition on the room, read off the store. -/
theorem Holding.heirFits_iff (h : Holding s t) (w : Word) (hfuel : t.delta + 1 < fuel) (hpos : 1 ≤ (words t).find w) :
    HeirFits s (words t) w ↔ ((words t).find w = 1 → CopyFits fuel s w.bytes) := by
  constructor
  · intro hfits hone str hstr
    rw [h.successor_spec hfuel hone] at hstr
    obtain ⟨b, hb, rfl⟩ := Option.map_eq_some_iff.mp (Except.ok.inj hstr)
    exact hfits b hb
  · intro hcopy b hb
    have hone : (words t).find w = 1 := by
      have := find_of_heir hb
      omega
    exact hcopy hone b.bytes (by rw [h.successor_spec hfuel hone, hb]; rfl)

/-! ## Deletions that are exact -/

/-- A deletion that is carried out, by the multiplicity of the word. -/
theorem Holding.deleted_one_iff (h : Holding s t) (hfuel : 120 ≤ fuel) {q : Int × AvlSt} {t' : CountTree Loc}
    (h' : Holding q.2 t') (hw : words t' = (words t).erase w) (hi : avlItems q.2 = prev (avlItems s))
    (hu : avlUnique q.2 = if toInt32 ((words t).find w) = 1 then prev (avlUnique s) else avlUnique s) :
    DeletedOne fuel s q.2 w ((words t).find w) ↔ ((words t).find w % 2 ^ 32 = 1 → (words t).find w = 1) := by
  have hdelta := h.owns.delta_le h.avl
  have hdelta' := h'.owns.delta_le h'.avl
  constructor
  · intro hdone h1
    by_contra hne
    -- more than one occurrence: the call has counted the word off
    have hunique := hdone.unique
    rw [hu, if_pos (toInt32_eq_one.mpr h1), if_neg hne] at hunique
    exact prev_ne hunique
  · intro hex
    refine ⟨?_, ?_, hi, ?_⟩
    · rw [h'.exists_spec (by omega), hw, find_erase h.ordered, if_pos rfl]
    · intro v hv
      rw [h'.exists_spec (by omega), h.exists_spec (by omega), hw, find_erase h.ordered, if_neg hv]
    · rw [hu]
      by_cases h1 : (words t).find w = 1
      · rw [if_pos (toInt32_eq_one.mpr (by rw [h1]; rfl)), if_pos h1]
      · rw [if_neg fun hm => h1 (hex (toInt32_eq_one.mp hm)), if_neg h1]

/-- In every store that a run leaves: `avl_delete` of a word that is there returns, having
    taken one occurrence away and counted it off, iff the word's multiplicity is no multiple
    of 2^32, is 1 if it is 1 modulo 2^32, and then leaves room for the copy that is made. -/
theorem delete_exact_iff (fuel size : Nat) (hs : vmStart + size < 2 ^ 64) (file : Mem) (ops : List Op) (s : AvlSt)
    (w : Word) (c : Nat) (hfuel : 120 ≤ fuel) (hrun : session fuel size hs file ops = .ok s)
    (hc : avlExists fuel s w.bytes = .ok c) (hpos : 1 ≤ c) :
    (∃ q, avlDelete fuel s w.bytes = .ok q ∧ q.1 = 0 ∧ DeletedOne fuel s q.2 w c) ↔
      c % 2 ^ 32 ≠ 0 ∧ (c % 2 ^ 32 = 1 → c = 1) ∧ (c = 1 → CopyFits fuel s w.bytes) := by
  have hholds := session_holding fuel size hs file ops hfuel
  rw [hrun] at hholds
  cases hholds with
  | ok hh =>
    obtain ⟨t, h, -⟩ := hh
    have hdelta := h.owns.delta_le h.avl
    rw [h.exists_spec (by omega)] at hc
    cases hc
    rw [← h.heirFits_iff w (by omega) hpos]
    by_cases h0 : toInt32 ((words t).find w) = 0
    · -- the assertion fails
      rw [h.delete_absent (by omega) h0]
      constructor
      · intro hq
        obtain ⟨q, hq, -⟩ := hq
        cases hq
      · exact fun hex => absurd (toInt32_eq_zero.mp h0) hex.1
    have hspec := h.delete_fits w (show t.delta + 1 < fuel by omega) h0
    constructor
    · intro hq
      obtain ⟨q, hq, -, hdone⟩ := hq
      rw [hq] at hspec
      cases hspec with
      | ok hok =>
        obtain ⟨-, hroom, t', h', hw, hi, hu⟩ := hok
        exact ⟨fun hm => h0 (toInt32_eq_zero.mpr hm), (h.deleted_one_iff hfuel h' hw hi hu).mp hdone, hroom⟩
    · intro hex
      obtain ⟨q, hq, hr, -, t', h', hw, hi, hu⟩ := hspec.exists_ok fun e _ he => he.2 hex.2.2
      exact ⟨q, hq, hr, (h.deleted_one_iff hfuel h' hw hi hu).mpr hex.2.1⟩

/-- The words "b", "a" and "c": the node of "b" has two children. -/
def threeWords : List Op :=
  [.insert (.rep 98 letter_b 0), .insert (.rep 97 letter_a 0), .insert (.rep 99 letter_c 0)]

/-- With "b" goes its node, which takes a copy of "c", and there is room for it. -/
theorem threeWords_b : (session 120 4096 (by decide) blank threeWords).map (fun s =>
      ((avlExists 120 s [98]).toOption, (successor 120 s [98]).toOption, decide (HasRoom s.scm [99]))) =
    .ok (some 1, some (some [99]), true) := by decide +kernel

theorem delete_exact_iff_few_words : ∃ s, session 120 4096 (by decide) blank threeWords = .ok s ∧
    ∃ q, avlDelete 120 s [98] = .ok q ∧ q.1 = 0 ∧ DeletedOne 120 s q.2 (.rep 98 letter_b 0) 1 := by
  obtain ⟨s, hs, hvals⟩ := exists_ok_of_map threeWords_b
  simp only [Prod.mk.injEq, decide_eq_true_iff] at hvals
  obtain ⟨hone, hsucc, hroom⟩ := hvals
  refine ⟨s, hs, (delete_exact_iff 120 4096 (by decide) blank threeWords s (.rep 98 letter_b 0) 1 (by decide) hs
    (ok_of_toOption hone) (by decide)).mpr ⟨by decide, fun _ => rfl, fun _ str hstr => ?_⟩⟩
  have hsome := hsucc.symm.trans (congrArg Except.toOption hstr)
  cases hsome
  exact hroom

/-! ## A word that is inserted 2^32 times -/

/-- More occurrences of a word that is there need no room. -/
theorem Holding.insert_again (hfuel : 120 ≤ fuel) : ∀ (n : Nat) {s : AvlSt} {t : CountTree Loc}, Holding s t →
    1 ≤ (words t).find w → (words t).find w + n < 2 ^ 64 →
    ∃ s' t', run fuel s (List.replicate n (.insert w)) = .ok s' ∧ Holding s' t' ∧
      (words t').find w = (words t).find w + n := by
  intro n
  induction n with
  | zero => exact fun {s t} h _ _ => ⟨s, t, rfl, h, rfl⟩
  | succ n ih =>
    intro s t h hpos hlt
    have hdelta := h.owns.delta_le h.avl
    have hpres := present_of_find (by omega : (words t).find w ≠ 0)
    obtain ⟨q, hq, -, t₁, h₁, hw, -⟩ := (h.insert_spec w (show t.delta + 1 < fuel by omega)).exists_ok fun e _ he => by
      have hmiss := he.2
      rw [hpres] at hmiss
      cases hmiss
    have hfind : (words t₁).find w = (words t).find w + 1 := by
      rw [hw, find_insert h.ordered, if_pos rfl, if_pos hpres]
      exact Nat.mod_eq_of_lt (by omega)
    obtain ⟨s', t', hrun, h', hfind'⟩ := ih h₁ (by omega) (by omega)
    refine ⟨s', t', ?_, h', by omega⟩
    rw [List.replicate_succ, run, step, hq]
    exact hrun

theorem one_word : (session 120 4096 (by decide) blank [.insert (.rep 98 letter_b 0)]).map
    (fun s => (avlExists 120 s [98]).toOption) = .ok (some 1) := by decide +kernel

/-- A word that was inserted 2^32 times cannot be deleted. -/
theorem a_multiplicity_is_narrowed :
    ¬ ∀ (ops : List Op) (s : AvlSt) (w : Word) (c : Nat), session 120 4096 (by decide) blank ops = .ok s →
      avlExists 120 s w.bytes = .ok c → 1 ≤ c →
      ∃ q, avlDelete 120 s w.bytes = .ok q ∧ q.1 = 0 ∧ DeletedOne 120 s q.2 w c := by
  intro hall
  obtain ⟨s₁, hs₁, -⟩ := exists_ok_of_map one_word
  have hholds := session_holding 120 4096 (by decide) blank [.insert (.rep 98 letter_b 0)] (by decide)
  rw [hs₁] at hholds
  cases hholds with
  | ok hh =>
    obtain ⟨t₁, h₁, hw₁⟩ := hh
    have hone : (words t₁).find (.rep 98 letter_b 0) = 1 := by
      rw [hw₁]
      decide
    obtain ⟨s, t, hrun, h, hfind⟩ := h₁.insert_again (Nat.le_refl 120) (2 ^ 32 - 1) (by omega)
      (show (words t₁).find (.rep 98 letter_b 0) + (2 ^ 32 - 1) < 2 ^ 64 by omega)
    have hdelta := h.owns.delta_le h.avl
    have hcount : (words t).find (.rep 98 letter_b 0) = 2 ^ 32 := by omega
    obtain ⟨q, hq, -⟩ := hall _ s (.rep 98 letter_b 0) (2 ^ 32) ((session_append hs₁).trans hrun)
      (by rw [h.exists_spec (by omega), hcount]) (by decide)
    rw [h.delete_absent (by omega) (toInt32_eq_zero.mpr (by rw [hcount]; rfl))] at hq
    cases hq

end Cs238p.Avl
