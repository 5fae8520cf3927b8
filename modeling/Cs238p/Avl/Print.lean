/-
  Cs238p.Avl.Print — `avl_print` (`project-3/avl.c`): the tree, turned by a quarter.

  A node is a line: 10 blanks for every level, the word and its count. The right subtree is
  printed above it and the left one below.

  Proved, of every store that a run leaves: a text is printed, and where no word begins with
  a blank or has a line break in it, two stores print the same text iff they hold the same
  tree, with the same counts (`print_shows_the_tree`).
-/
import Cs238p.Avl.Runs
import Cs238p.Lib.Outline

namespace Cs238p.Avl

open ByteMemory Scm AvlTree CountTree Outline

/-! ## Printing -/

def decimal (n : Nat) : List UInt8 := (Nat.toDigits 10 n).map fun c => UInt8.ofNat c.toNat

/-- `%ld`, of an `uint64_t`. -/
def ld (n : Nat) : List UInt8 := if n < 2 ^ 63 then decimal n else 45 :: decimal (2 ^ 64 - n)

/-- `%s(%ld)`, behind `space` blanks. -/
def nodeLine (space : Nat) (item : List UInt8) (count : Nat) : List UInt8 :=
  List.replicate space 32 ++ (item ++ 40 :: (ld count ++ [41]))

def print (s : AvlSt) : Nat → Nat → Nat → Except Stop (List UInt8)
  | 0, _, _ => .error .fuel
  | fuel + 1, root, space =>
    if root = 0 then pure []
    else do
      let space := space + 10
      let right ← print s fuel (nodeAt s.mem root).right space
      let item ← s.strAt (nodeAt s.mem root).item
      let left ← print s fuel (nodeAt s.mem root).left space
      return right ++ 10 :: nodeLine space item (nodeAt s.mem root).count ++ left

/-- `avl_print`. -/
def avlPrint (fuel : Nat) (s : AvlSt) : Except Stop (List UInt8) := do
  let text ← print s fuel (stateAt s.mem s.state).root 0
  return text ++ [10]

/-! ## The tree that is printed -/

/-- The printed text of a tree below `d` levels. -/
def render (d : Nat) : CountTree Word → List UInt8
  | nil => []
  | node _ c a l r => render (d + 1) r ++ 10 :: nodeLine (10 * (d + 1)) a.bytes c ++ render (d + 1) l

/-- From above, and without the depths. -/
def turned : CountTree Word → BinaryTree (Word × Nat)
  | nil => .nil
  | node _ c a l r => .node (a, c) (turned r) (turned l)

def outlineLine (e : Nat × Word × Nat) : List UInt8 := nodeLine (10 * (e.1 + 1)) e.2.1.bytes e.2.2

/-- A word that is read off its line. -/
structure Word.Plain (w : Word) : Prop where
  noBreak : 10 ∉ w.bytes
  noIndent : w.bytes.head? ≠ some 32

instance (w : Word) : Decidable w.Plain :=
  decidable_of_iff (10 ∉ w.bytes ∧ w.bytes.head? ≠ some 32) ⟨fun h => ⟨h.1, h.2⟩, fun h => ⟨h.noBreak, h.noIndent⟩⟩

variable {s s' : AvlSt} {t t' : CountTree Loc} {T U : CountTree Word} {F : Multiset Cell} {fuel d n m c : Nat} {w : Word}
  {item item' : List UInt8}

theorem render_eq (d : Nat) (T : CountTree Word) : render d T = marked 10 ((outline d (turned T)).map outlineLine) := by
  induction T generalizing d with
  | nil => rfl
  | node d' c a l r ihl ihr =>
    rw [render, turned, outline, ihl, ihr]
    simp only [marked, List.map_append, List.map_cons, List.flatMap_append, List.flatMap_cons, outlineLine,
      List.append_assoc, List.cons_append]

theorem turned_injective (hT : T.Avl) (hU : U.Avl) (h : turned T = turned U) : T = U := by
  induction T generalizing U with
  | nil =>
    cases U with
    | nil => rfl
    | node d c a l r => cases h
  | node d c a l r ihl ihr =>
    cases U with
    | nil => cases h
    | node d' c' a' l' r' =>
      obtain ⟨hd, -, hl, hr⟩ := hT
      obtain ⟨hd', -, hl', hr'⟩ := hU
      rw [turned, turned, BinaryTree.node.injEq, Prod.mk.injEq] at h
      obtain ⟨⟨rfl, rfl⟩, h1, h2⟩ := h
      obtain rfl := ihl hl hl' h2
      obtain rfl := ihr hr hr' h1
      rw [hd, hd']

/-! ## A line -/

theorem isDigit_of_mem_decimal {b : UInt8} (h : b ∈ decimal n) : 48 ≤ b ∧ b ≤ 57 := by
  obtain ⟨c, hc, rfl⟩ := List.mem_map.mp h
  have hdigit := Nat.isDigit_of_mem_toDigits (by decide) (by decide) hc
  rw [Char.isDigit, Bool.and_eq_true, decide_eq_true_eq, decide_eq_true_eq] at hdigit
  have h1 : 48 ≤ c.toNat := UInt32.le_iff_toNat_le.mp hdigit.1
  have h2 : c.toNat ≤ 57 := UInt32.le_iff_toNat_le.mp hdigit.2
  rw [UInt8.le_iff_toNat_le, UInt8.le_iff_toNat_le, UInt8.toNat_ofNat']
  simp
  omega

theorem decimal_injective (h : decimal n = decimal m) : n = m := by
  have hback : ∀ n, (decimal n).map (fun b => Char.ofNat b.toNat) = Nat.toDigits 10 n := fun n => by
    rw [decimal, List.map_map]
    have hid : ∀ c ∈ Nat.toDigits 10 n, ((fun b : UInt8 => Char.ofNat b.toNat) ∘ fun c : Char => UInt8.ofNat c.toNat) c =
        id c := by
      intro c hc
      have hdigit := Nat.isDigit_of_mem_toDigits (by decide) (by decide) hc
      rw [Char.isDigit, Bool.and_eq_true, decide_eq_true_eq, decide_eq_true_eq] at hdigit
      have h2 : c.toNat ≤ 57 := UInt32.le_iff_toNat_le.mp hdigit.2
      rw [Function.comp_apply, UInt8.toNat_ofNat', Nat.mod_eq_of_lt (by omega), Char.ofNat_toNat, id]
    rw [List.map_congr_left hid, List.map_id]
  have hdigits : Nat.toDigits 10 n = Nat.toDigits 10 m := by rw [← hback, ← hback, h]
  rw [← @Nat.ofDigitChars_ten_toDigits n, ← @Nat.ofDigitChars_ten_toDigits m, hdigits]

theorem ld_injective (hn : n < 2 ^ 64) (hm : m < 2 ^ 64) (h : ld n = ld m) : n = m := by
  -- a sign is no digit
  have hsign : ∀ k j : Nat, decimal k ≠ 45 :: decimal j := fun k j he => by
    have := isDigit_of_mem_decimal (n := k) (b := 45) (he ▸ List.mem_cons_self)
    exact absurd this.1 (by decide)
  unfold ld at h
  split at h
  · split at h
    · exact decimal_injective h
    · exact absurd h (hsign _ _)
  · split at h
    · exact absurd h.symm (hsign _ _)
    · have := decimal_injective (List.cons.inj h).2
      omega

theorem mem_ld {b : UInt8} (h : b ∈ ld n) : b = 45 ∨ 48 ≤ b ∧ b ≤ 57 := by
  unfold ld at h
  split at h
  · exact Or.inr (isDigit_of_mem_decimal h)
  · rcases List.mem_cons.mp h with h | h
    · exact Or.inl h
    · exact Or.inr (isDigit_of_mem_decimal h)

/-- The blanks end where the word begins, and the word at the last parenthesis. -/
theorem nodeLine_injective {v : Word} {k j : Nat} (hw : w.Plain) (hv : v.Plain) (hn : n < 2 ^ 64) (hm : m < 2 ^ 64)
    (h : nodeLine k w.bytes n = nodeLine j v.bytes m) : k = j ∧ w = v ∧ n = m := by
  obtain ⟨b, bs, hb⟩ := List.exists_cons_of_ne_nil w.nonempty
  obtain ⟨c, cs, hc⟩ := List.exists_cons_of_ne_nil v.nonempty
  have hb32 : b ≠ 32 := fun he => hw.noIndent (by rw [hb, he]; rfl)
  have hc32 : c ≠ 32 := fun he => hv.noIndent (by rw [hc, he]; rfl)
  have hrep : ∀ k : Nat, ∀ x ∈ List.replicate k (32 : UInt8), ¬ x ≠ 32 := fun k x hx hne => hne (List.eq_of_mem_replicate hx)
  rw [nodeLine, nodeLine, hb, hc] at h
  obtain ⟨hspace, rfl, hrest⟩ := cut_first (p := fun x : UInt8 => x ≠ 32) (hrep k) (hrep j) hb32 hc32 h
  have hkj : k = j := by simpa using congrArg List.length hspace
  have hno : ∀ n : Nat, ∀ x ∈ ld n ++ [41], ¬ x = 40 := by
    intro n x hx he
    subst he
    rcases List.mem_append.mp hx with hx | hx
    · rcases mem_ld hx with hx | ⟨hx, -⟩
      · exact absurd hx (by decide)
      · exact absurd hx (by decide)
    · exact absurd (List.mem_singleton.mp hx) (by decide)
  obtain ⟨rfl, -, hcount⟩ := cut_last (p := fun x : UInt8 => x = 40) (hno n) (hno m) rfl rfl hrest
  exact ⟨hkj, Word.ext (hb.trans hc.symm), ld_injective hn hm (List.append_cancel_right hcount)⟩

theorem noBreak_nodeLine (hw : w.Plain) (k : Nat) : 10 ∉ nodeLine k w.bytes n := by
  intro h
  rw [nodeLine] at h
  rcases List.mem_append.mp h with h | h
  · exact absurd (List.eq_of_mem_replicate h) (by decide)
  · rcases List.mem_append.mp h with h | h
    · exact hw.noBreak h
    · rcases List.mem_cons.mp h with h | h
      · exact absurd h (by decide)
      · rcases List.mem_append.mp h with h | h
        · rcases mem_ld h with h | ⟨h, -⟩
          · exact absurd h (by decide)
          · exact absurd h (by decide)
        · exact absurd (List.mem_singleton.mp h) (by decide)

/-! ## A text -/

/-- Words that are read off their lines, with counts of 64 bits. -/
def Legible (T : CountTree Word) : Prop := ∀ e ∈ toList T, e.1.Plain ∧ e.2 < 2 ^ 64

theorem mem_outline_turned {e : Nat × Word × Nat} (h : e ∈ outline d (turned T)) : e.2 ∈ toList T := by
  induction T generalizing d with
  | nil => cases h
  | node d' c a l r ihl ihr =>
    rw [turned, outline] at h
    rw [toList]
    rcases List.mem_append.mp h with h | h
    · exact List.mem_append_right _ (List.mem_cons_of_mem _ (ihr h))
    · rcases List.mem_cons.mp h with rfl | h
      · exact List.mem_append_right _ List.mem_cons_self
      · exact List.mem_append_left _ (ihl h)

theorem outlineLine_injective {e e' : Nat × Word × Nat} (h : e.2.1.Plain ∧ e.2.2 < 2 ^ 64)
    (h' : e'.2.1.Plain ∧ e'.2.2 < 2 ^ 64) (heq : outlineLine e = outlineLine e') : e = e' := by
  obtain ⟨d, w, n⟩ := e
  obtain ⟨d', w', n'⟩ := e'
  obtain ⟨hspace, rfl, rfl⟩ := nodeLine_injective h.1 h'.1 h.2 h'.2 heq
  obtain rfl : d = d' := by omega
  rfl

/-- A legible tree is read off its text: first the lines, then the entries, then the tree. -/
theorem render_injective (hT : T.Avl) (hU : U.Avl) (hlT : Legible T) (hlU : Legible U) (h : render 0 T = render 0 U) :
    T = U := by
  rw [render_eq, render_eq] at h
  have hlines : ∀ {T : CountTree Word}, Legible T → ∀ l ∈ (outline 0 (turned T)).map outlineLine, 10 ∉ l := by
    intro T hl l hm
    obtain ⟨e, he, rfl⟩ := List.mem_map.mp hm
    exact noBreak_nodeLine (hl _ (mem_outline_turned he)).1 _
  have hmap := marked_injective (hlines hlT) (hlines hlU) h
  have hout := map_eq_of_injOn (fun e he e' he' => outlineLine_injective (hlT _ (mem_outline_turned he))
    (hlU _ (mem_outline_turned he'))) hmap
  exact turned_injective hT hU (outline_injective hout)

/-! ## The store's text -/

theorem print_spec (h : Owns s t F) (ha : t.Avl) (hw : Whole t) (hfuel : t.delta + 1 < fuel) (d : Nat) :
    print s fuel (ptr t) (10 * d) = .ok (render d (words t)) := by
  induction t generalizing fuel F d with
  | nil =>
    obtain ⟨fuel, rfl⟩ : ∃ k, fuel = k + 1 := ⟨fuel - 1, by rw [delta_nil] at hfuel; omega⟩
    rw [print, ptr_nil, if_pos rfl]
    rfl
  | node d' c a l r ihl ihr =>
    obtain ⟨⟨hl1, hl2⟩, hr1, hr2⟩ := sub_bounds ha
    have hge := ha.delta_ge
    rw [delta_node] at hge hfuel
    obtain ⟨fuel, rfl⟩ : ∃ k, fuel = k + 1 := ⟨fuel - 1, by omega⟩
    obtain ⟨-, -, hal, har⟩ := ha
    have hspace : 10 * d + 10 = 10 * (d + 1) := by omega
    rw [print, ptr_node, if_neg h.shaped.2.2.1.1, h.shaped.1]
    simp only [hspace]
    rw [@ihl _ fuel h.left hal hw.2.1 (by omega), @ihr _ fuel h.right har hw.2.2 (by omega)]
    simp only [h.strAt hw.1, ok_bind, words_node, render]
    rfl

theorem Holding.print_spec (h : Holding s t) (hfuel : t.delta + 1 < fuel) :
    avlPrint fuel s = .ok (render 0 (words t) ++ [10]) := by
  have hroot := Avl.print_spec h.owns h.avl h.whole hfuel 0
  rw [Nat.mul_zero] at hroot
  rw [avlPrint, h.state, h.root, hroot, ok_bind]
  rfl

theorem Shaped.count_lt {m : Mem} (h : Shaped m t) : ∀ e ∈ toList (words t), e.2 < 2 ^ 64 := by
  induction t with
  | nil => exact fun e he => absurd he List.not_mem_nil
  | node d c a l r ihl ihr =>
    obtain ⟨hn, -, -, -, hl, hr⟩ := h
    intro e he
    rw [words_node, toList_node] at he
    rcases List.mem_append.mp he with he | he
    · exact ihl hl e he
    · rcases List.mem_cons.mp he with rfl | he
      · rw [show c = (nodeAt m a.addr).count by rw [hn]]
        exact Mem.load_lt _ _ 8
      · exact ihr hr e he

/-- A word of the tree was there or has been inserted. -/
theorem mem_grown {e : Word × Nat} : ∀ {T : CountTree Word} (ops : List Op), e ∈ toList (ops.foldl Op.grow T) →
    e.1 ∈ (toList T).map Prod.fst ∨ .insert e.1 ∈ ops
  | _, [], h => Or.inl (List.mem_map_of_mem h)
  | T, op :: ops, h => by
    rcases mem_grown ops h with h | h
    · obtain ⟨e', he', heq⟩ := List.mem_map.mp h
      cases op with
      | insert w =>
        rcases mem_insert he' with h | ⟨h, -⟩
        · exact Or.inl (heq ▸ List.mem_map_of_mem h)
        · exact Or.inr (by rw [← heq, h]; exact List.mem_cons_self)
      | delete w =>
        rcases mem_erase he' with h | ⟨k, h, he, -⟩
        · exact Or.inl (heq ▸ List.mem_map_of_mem h)
        · exact Or.inl (List.mem_map.mpr ⟨_, h, he.symm.trans heq⟩)
    · exact Or.inr (List.mem_cons_of_mem _ h)

/-- The words that are inserted can be read off their lines. -/
def PlainOps (ops : List Op) : Prop := ∀ w, .insert w ∈ ops → w.Plain

theorem Holding.legible {ops : List Op} (h : Holding s t) (hw : words t = ops.foldl Op.grow nil) (hp : PlainOps ops) :
    Legible (words t) := by
  intro e he
  refine ⟨?_, h.owns.shaped.count_lt e he⟩
  rw [hw] at he
  rcases mem_grown ops he with h | h
  · cases h
  · exact hp _ h

/-- Two stores, each after any run in any region: `avl_print` prints a text of both, and it
    is the same text iff they hold the same tree, node by node with the same counts. -/
theorem print_shows_the_tree (fuel size size' : Nat) (hs : vmStart + size < 2 ^ 64) (hs' : vmStart + size' < 2 ^ 64)
    (file file' : Mem) (ops ops' : List Op) (hfuel : 120 ≤ fuel) (hrun : session fuel size hs file ops = .ok s)
    (hrun' : session fuel size' hs' file' ops' = .ok s') (hp : PlainOps ops) (hp' : PlainOps ops') :
    ∃ t t' text text', Holding s t ∧ Holding s' t' ∧ avlPrint fuel s = .ok text ∧ avlPrint fuel s' = .ok text' ∧
      (text = text' ↔ words t = words t') := by
  have hout := session_holding fuel size hs file ops hfuel
  have hout' := session_holding fuel size' hs' file' ops' hfuel
  rw [hrun] at hout
  rw [hrun'] at hout'
  cases hout with
  | ok h =>
    cases hout' with
    | ok h' =>
      obtain ⟨t, h, hw⟩ := h
      obtain ⟨t', h', hw'⟩ := h'
      have hdelta := h.owns.delta_le h.avl
      have hdelta' := h'.owns.delta_le h'.avl
      refine ⟨t, t', _, _, h, h', h.print_spec (by omega), h'.print_spec (by omega), ?_⟩
      constructor
      · intro heq
        exact render_injective ((avl_words _).mpr h.avl) ((avl_words _).mpr h'.avl) (h.legible hw hp) (h'.legible hw' hp')
          (List.append_cancel_right heq)
      · intro heq
        rw [heq]

/-- The word "b", and "a" below it. -/
def twoLines : List UInt8 := 10 :: nodeLine 10 [98] 1 ++ 10 :: nodeLine 20 [97] 1 ++ [10]

/-- "b" and "a", each inserted once. -/
def twoWords : List Op := [.insert (.rep 98 letter_b 0), .insert (.rep 97 letter_a 0)]

theorem plain_rep {b : UInt8} (hb : b ≠ 0) (hbreak : b ≠ 10) (hblank : b ≠ 32) (n : Nat) : (Word.rep b hb n).Plain where
  noBreak := fun h => hbreak (List.eq_of_mem_replicate h).symm
  noIndent := fun h => hblank (Option.some.inj h)

theorem plainOps_fewWords : PlainOps fewWords := by
  intro w hw
  simp only [fewWords, List.mem_cons, Op.insert.injEq, reduceCtorEq, List.not_mem_nil, or_false] at hw
  rcases hw with h | h | h
  · exact h ▸ plain_rep _ (by decide) (by decide) 0
  · exact h ▸ plain_rep _ (by decide) (by decide) 0
  · exact h ▸ plain_rep _ (by decide) (by decide) 0

theorem plainOps_twoWords : PlainOps twoWords := by
  intro w hw
  simp only [twoWords, List.mem_cons, Op.insert.injEq, List.not_mem_nil, or_false] at hw
  rcases hw with h | h
  · exact h ▸ plain_rep _ (by decide) (by decide) 0
  · exact h ▸ plain_rep _ (by decide) (by decide) 0

theorem avlPrint_eq {r : Except Stop AvlSt} {text text' : List UInt8} (hr : r = .ok s)
    (htext : r.map (fun s => (avlPrint fuel s).toOption) = .ok (some text)) (hp : avlPrint fuel s = .ok text') : text' = text := by
  rw [hr, Except.map, hp] at htext
  exact Option.some.inj (Except.ok.inj htext)

/-- The store of `fewWords` prints the text of that of `twoWords`: they hold the same tree. -/
theorem print_shows_the_tree_few_words : ∃ s s' t t', session 120 4096 (by decide) blank fewWords = .ok s ∧
    session 120 2048 (by decide) blank twoWords = .ok s' ∧ Holding s t ∧ Holding s' t' ∧ words t = words t' := by
  have hfew : (session 120 4096 (by decide) blank fewWords).map (fun s => (avlPrint 120 s).toOption) =
      .ok (some twoLines) := by decide +kernel
  have htwo : (session 120 2048 (by decide) blank twoWords).map (fun s => (avlPrint 120 s).toOption) =
      .ok (some twoLines) := by decide +kernel
  obtain ⟨s, hs, -⟩ := exists_ok_of_map hfew
  obtain ⟨s', hs', -⟩ := exists_ok_of_map htwo
  obtain ⟨t, t', text, text', h, h', hp, hp', hiff⟩ := print_shows_the_tree 120 4096 2048 (by decide) (by decide) blank
    blank fewWords twoWords (by decide) hs hs' plainOps_fewWords plainOps_twoWords
  refine ⟨s, s', t, t', hs, hs', h, h', hiff.mp ?_⟩
  rw [avlPrint_eq hs hfew hp, avlPrint_eq hs' htwo hp']

end Cs238p.Avl
