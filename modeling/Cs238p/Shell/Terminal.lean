/-
  Cs238p.Shell.Terminal — what `list` and `print` show of a store that was filled from the
  shell.

  A line has printable characters only, `load` cuts a file at its line breaks, and words are
  trimmed: so no word begins with a blank or has a line break in it (`Clean`).

  Proved: of two such stores, `list` prints the same text iff they have the same words, as
  often, and `print` prints the same text only if they do (`output_tells_the_words`).
-/
import Cs238p.Shell.Shell

namespace Cs238p.Shell

open ByteMemory Trimming Scm Avl AvlTree CountTree Outline

/-! ## The words of a shell -/

/-- No line break, and no blank at the front. -/
structure Clean (a : List UInt8) : Prop where
  noBreak : 10 ∉ a
  noIndent : a.head? ≠ some 32

def Typed (l : List UInt8) : Prop := ∀ b ∈ l, isprint b = true

/-- All lines are typed, and all words clean. -/
structure Ref.Tidy (r : Ref) : Prop where
  line : Typed r.line.text
  saved : ∀ l ∈ r.saved, Typed l
  words : ∀ a ∈ r.words, Clean a

variable {files : List UInt8 → Option TextFile} {r : Ref} {l : Line} {saved : List (List UInt8)} {text text' a arg : List UInt8}
  {c : Command} {k : Key} {B B' : Multiset (List UInt8)} {base fuel : Nat} {s s' : ShellSt} {e e' : List UInt8 × Nat}
  {L L' : List (List UInt8 × Nat)}

theorem typed_append : Typed (text ++ text') ↔ Typed text ∧ Typed text' := List.forall_mem_append

theorem Typed.sub (h : Typed text) (hs : ∀ b ∈ text', b ∈ text) : Typed text' := fun b hb => h b (hs b hb)

theorem typed_edit {front back : List UInt8} (hf : Typed front) (hb : Typed back) : Typed (l.edit front back).text :=
  typed_append.mpr ⟨hf, hb⟩

theorem typed_take (h : Typed text) (i : Nat) : Typed (text.take i) := h.sub fun _ hb => List.mem_of_mem_take hb

theorem typed_drop (h : Typed text) (i : Nat) : Typed (text.drop i) := h.sub fun _ hb => List.mem_of_mem_drop hb

theorem typed_browse (hs : ∀ l ∈ saved, Typed l) (j : Nat) : Typed (Line.browse saved j).text := by
  rw [Line.browse, List.getD_eq_getElem?_getD]
  cases h : saved[j]? with
  | none => exact fun _ hb => absurd hb List.not_mem_nil
  | some x => exact hs x (List.mem_of_getElem? h)

theorem typed_insert (h : Typed l.text) {b : UInt8} (hb : isprint b = true) : Typed (l.insert b).text := by
  rw [Line.insert]
  split
  · refine typed_edit (typed_append.mpr ⟨typed_take h _, fun x hx => ?_⟩) (typed_drop h _)
    rw [List.mem_singleton.mp hx]
    exact hb
  · exact h

theorem typed_press (h : Typed l.text) (hs : ∀ l ∈ saved, Typed l) (k : Key) : Typed (l.press saved k).text := by
  have hnil : Typed [] := fun _ hb => absurd hb List.not_mem_nil
  cases k with
  | escape c =>
    rw [Line.press]
    split_ifs
    · exact typed_browse hs _
    · exact h
    · exact typed_browse hs _
    · exact h
    · exact h
    · exact h
    · exact h
  | plain k hk =>
    rw [Line.press]
    split_ifs with h1 h2 h3 h4 h5
    · exact typed_edit (typed_take h _) hnil
    · exact typed_edit (typed_take h _) (typed_drop h _)
    · exact typed_edit (typed_take h _) (typed_drop h _)
    · exact typed_insert h rfl
    · exact typed_insert h h5
    · exact h

/-! ## The lines that are kept -/

theorem typed_faces : ∀ e ∈ cmds, e.face.all isprint = true := by decide

theorem typed_tidy (h : Typed text) : Typed (tidy text) := by
  rw [tidy]
  cases he : entryOf text with
  | none => exact h
  | some e =>
    obtain ⟨hmem, rest, rfl⟩ := entryOf_some he
    obtain ⟨-, hrest⟩ := typed_append.mp h
    simp only [List.drop_left]
    exact typed_append.mpr ⟨List.all_eq_true.mp (typed_faces e hmem), hrest.sub fun _ hb => mem_of_mem_trim hb⟩

/-- What is trimmed does not begin with a blank. -/
theorem clean_trim (h : 10 ∉ text) : Clean (trim isspace text) := by
  refine ⟨fun hb => h (mem_of_mem_trim hb), fun hh => ?_⟩
  have hfirst := trimmed_trim (p := isspace) text 32 (Or.inl hh)
  exact absurd hfirst (by decide)

theorem typed_noBreak (h : Typed text) : 10 ∉ text := fun hb => absurd (h 10 hb) (by decide)

theorem clean_arg (h : Typed text) (hsel : select text = .run c arg) : Clean arg := by
  rw [select] at hsel
  cases he : entryOf text with
  | none =>
    rw [he] at hsel
    cases hsel
  | some e =>
    obtain ⟨-, rest, rfl⟩ := entryOf_some he
    rw [he] at hsel
    simp only [List.drop_left] at hsel
    obtain ⟨-, rfl, -⟩ := choose_run hsel
    exact clean_trim (typed_noBreak (typed_append.mp h).2)

/-- A line break ends a chunk. -/
theorem fgets_break (n : Nat) (file : List UInt8) : ∃ l, 10 ∉ l ∧ ((fgets n file).1 = l ∨ (fgets n file).1 = l ++ [10]) := by
  induction n generalizing file with
  | zero => exact ⟨[], List.not_mem_nil, Or.inl rfl⟩
  | succ n ih =>
    cases file with
    | nil => exact ⟨[], List.not_mem_nil, Or.inl rfl⟩
    | cons b file =>
      rw [fgets]
      by_cases hb : b = 10
      · rw [if_pos hb, hb]
        exact ⟨[], List.not_mem_nil, Or.inr rfl⟩
      · obtain ⟨l, hl, hor⟩ := ih file
        rw [if_neg hb]
        refine ⟨b :: l, ?_, ?_⟩
        · rw [List.mem_cons, not_or]
          exact ⟨Ne.symm hb, hl⟩
        · rcases hor with hor | hor
          · exact Or.inl (by rw [hor])
          · exact Or.inr (by rw [hor]; rfl)

theorem clean_chunk (file : List UInt8) : ∀ a ∈ chunkTexts file, Clean a := by
  induction file using chunkTexts.induct with
  | case1 =>
    rw [chunkTexts]
    exact fun _ ha => absurd ha List.not_mem_nil
  | case2 c file ih =>
    intro a ha
    rw [chunkTexts, List.mem_append] at ha
    rcases ha with ha | ha
    · rw [piece] at ha
      split at ha
      · cases ha
      · rw [List.mem_singleton.mp ha]
        obtain ⟨l, hl, hor⟩ := fgets_break 255 (c :: file)
        rcases hor with hor | hor
        · rw [hor]
          exact clean_trim hl
        · rw [hor, trim_append_blank blank_newline]
          exact clean_trim hl
    · exact ih a ha

theorem clean_served (hw : ∀ a ∈ B, Clean a) (h : Typed text) : ∀ a ∈ served files B (select text), Clean a := by
  cases hsel : select text with
  | bad b => exact hw
  | run c arg =>
    have harg := clean_arg h hsel
    cases c with
    | quit => exact hw
    | help => exact hw
    | info => exact hw
    | list => exact hw
    | print => exact hw
    | exists_ => exact hw
    | insert =>
      intro a ha
      rcases Multiset.mem_cons.mp ha with rfl | ha
      · exact harg
      · exact hw a ha
    | delete => exact fun a ha => hw a (Multiset.mem_of_mem_erase ha)
    | load =>
      intro a ha
      rw [served, Multiset.mem_add] at ha
      rcases ha with ha | ha
      · exact hw a ha
      · cases hf : files arg with
        | none =>
          rw [hf] at ha
          cases ha
        | some file =>
          rw [hf] at ha
          exact clean_chunk file.bytes a ha

theorem Ref.Tidy.press (h : r.Tidy) (p : Press) : (r.press files p).Tidy := by
  unfold Ref.press
  split
  · exact h
  · have hnil : Typed [] := fun _ hb => absurd hb List.not_mem_nil
    cases p with
    | key k => exact ⟨typed_press h.line h.saved k, h.saved, h.words⟩
    | newline =>
      have htext : Typed (strtrim r.line.text) := h.line.sub fun _ hb => mem_of_mem_trim hb
      simp only
      split
      · refine ⟨hnil, ?_, clean_served h.words htext⟩
        intro l hl
        rcases List.mem_append.mp hl with hl | hl
        · exact h.saved l hl
        · rw [List.mem_singleton.mp hl]
          exact typed_tidy htext
      · exact ⟨hnil, h.saved, h.words⟩

theorem Ref.Tidy.run (h : r.Tidy) (presses : List Press) : (r.run files presses).Tidy := by
  induction presses generalizing r with
  | nil => exact h
  | cons p presses ih => exact ih (h.press p)

/-! ## What `list` prints -/

/-- A line of `list`, without its break. -/
def listLine (e : List UInt8 × Nat) : List UInt8 := 39 :: (e.1 ++ 39 :: ([32, 120, 32] ++ decimal e.2))

theorem text_listWord (e : List UInt8 × Nat) : (listWord e).text = listLine e ++ [10] := by
  have hquote : face "'" = [39] := by decide
  have htimes : face "' x " = 39 :: [32, 120, 32] := by decide
  have hbreak : face "\n" = [10] := by decide
  rw [listWord, Printed.text, hquote, htimes, hbreak, listLine]
  simp only [List.append_assoc, List.cons_append, List.nil_append]

theorem mem_behind {b : UInt8} {n : Nat} (h : b ∈ [32, 120, 32] ++ decimal n) : b = 32 ∨ b = 120 ∨ (48 ≤ b ∧ b ≤ 57) := by
  rcases List.mem_append.mp h with h | h
  · simp only [List.mem_cons, List.not_mem_nil, or_false] at h
    tauto
  · exact Or.inr (Or.inr (isDigit_of_mem_decimal h))

/-- Behind the last quotation mark is the count. -/
theorem listLine_injective (h : listLine e = listLine e') : e = e' := by
  have hno : ∀ n : Nat, ∀ b ∈ [32, 120, 32] ++ decimal n, ¬ b = 39 := by
    intro n b hb he
    subst he
    rcases mem_behind hb with h | h | ⟨h, -⟩
    · exact absurd h (by decide)
    · exact absurd h (by decide)
    · exact absurd h (by decide)
  obtain ⟨hw, -, hc⟩ := cut_last (p := fun b : UInt8 => b = 39) (hno e.2) (hno e'.2) rfl rfl (List.cons.inj h).2
  exact Prod.ext hw (decimal_injective (List.append_cancel_left hc))

theorem noBreak_listLine (h : Clean e.1) : 10 ∉ listLine e := by
  intro hb
  rcases List.mem_cons.mp hb with hb | hb
  · exact absurd hb (by decide)
  · rcases List.mem_append.mp hb with hb | hb
    · exact h.noBreak hb
    · rcases List.mem_cons.mp hb with hb | hb
      · exact absurd hb (by decide)
      · rcases mem_behind hb with hb | hb | ⟨hb, -⟩
        · exact absurd hb (by decide)
        · exact absurd hb (by decide)
        · exact absurd hb (by decide)

theorem text_list (L : List (List UInt8 × Nat)) : (L.map listWord).flatMap Printed.text = ended 10 (L.map listLine) := by
  rw [ended, List.flatMap_map, List.flatMap_map]
  exact List.flatMap_congr fun e _ => text_listWord e

/-- A listing says what is there, and how often. -/
theorem Listing.count_eq (h : Listing B L) (h' : Listing B' L) : B = B' := by
  ext a
  by_cases ha : a ∈ B
  · exact ((h'.complete a _).mp ((h.complete a _).mpr ⟨ha, rfl⟩)).2
  · have ha' : a ∉ B' := fun hm => ha ((h.complete a _).mp ((h'.complete a _).mpr ⟨hm, rfl⟩)).1
    rw [Multiset.count_eq_zero.mpr ha, Multiset.count_eq_zero.mpr ha']

/-- The order leaves no choice. -/
theorem Listing.unique (h : Listing B L) (h' : Listing B L') : L = L' := by
  have hperm : L.Perm L' := by
    refine (List.perm_ext_iff_of_nodup ?_ ?_).mpr fun e => by rw [h.complete, h'.complete]
    · exact h.sorted.imp fun hlt he => absurd hlt (by rw [he, strcmp_eq_zero.mpr rfl]; decide)
    · exact h'.sorted.imp fun hlt he => absurd hlt (by rw [he, strcmp_eq_zero.mpr rfl]; decide)
  refine hperm.eq_of_pairwise ?_ h.sorted h'.sorted
  intro x y _ _ hxy hyx
  exact absurd (strcmp_neg.mp hxy) (List.lt_asymm (strcmp_neg.mp hyx))

theorem list_text_iff (h : Listing B L) (h' : Listing B' L') (hc : ∀ a ∈ B, Clean a) (hc' : ∀ a ∈ B', Clean a) :
    (L.map listWord).flatMap Printed.text = (L'.map listWord).flatMap Printed.text ↔ B = B' := by
  rw [text_list, text_list]
  constructor
  · intro heq
    have hlines : ∀ {B L}, Listing B L → (∀ a ∈ B, Clean a) → ∀ l ∈ L.map listLine, 10 ∉ l := by
      intro B L hL hB l hl
      obtain ⟨e, he, rfl⟩ := List.mem_map.mp hl
      exact noBreak_listLine (hB e.1 ((hL.complete e.1 e.2).mp he).1)
    have hmap := ended_injective (hlines h hc) (hlines h' hc') heq
    rw [map_eq_of_injOn (fun e _ e' _ he => listLine_injective he) hmap] at h
    exact h.count_eq h'
  · intro heq
    rw [h.unique (heq ▸ h')]

/-! ## What `print` prints -/

theorem drawing_words {text : List UInt8} (h : Drawing B text) (h' : Drawing B' text) (hc : ∀ a ∈ B, Clean a)
    (hc' : ∀ a ∈ B', Clean a) (hsmall : ∀ a, B.count a < 2 ^ 31) (hsmall' : ∀ a, B'.count a < 2 ^ 31) : B = B' := by
  obtain ⟨T, hT, hord, hpos, rfl, ht⟩ := h
  obtain ⟨U, hU, hord', hpos', rfl, hu⟩ := h'
  have hlegible : ∀ {T : CountTree Word}, T.Ordered → T.Positive → (∀ a ∈ (bag T).map Word.bytes, Clean a) →
      (∀ a, ((bag T).map Word.bytes).count a < 2 ^ 31) → Legible T := by
    intro T hord hpos hc hsmall e he
    have hcount : (bag T).count e.1 = e.2 := count_of_mem hord he
    have hone := hpos e he
    have hmem : e.1 ∈ bag T := Multiset.count_pos.mp (by omega)
    have hclean := hc e.1.bytes (mem_bytes.mpr hmem)
    have hlt := hsmall e.1.bytes
    rw [count_bytes, hcount] at hlt
    exact ⟨⟨hclean.noBreak, hclean.noIndent⟩, by omega⟩
  have heq := List.append_cancel_right (ht.symm.trans hu)
  rw [render_injective hT hU (hlegible hord hpos hc hsmall) (hlegible hord' hpos' hc' hsmall') heq]

/-! ## Two shells -/

/-- A shell on a new store has come to `s`, inside the bounds of its reference. -/
def Ran (base fuel : Nat) (s : ShellSt) : Prop :=
  ∃ (size : Nat) (hs : vmStart + size < 2 ^ 64) (file m : Mem) (avl : AvlSt) (files : List UInt8 → Option TextFile)
    (presses : List Press), session fuel size hs file [] = .ok avl ∧ m.byte base = 0 ∧
      (Ref.start 0).AllowsAll files presses ∧ shell base fuel files (.start base m avl) presses = .ok s

theorem Keeps.small {avl : AvlSt} (h : Keeps avl B) (a : List UInt8) : B.count a < 2 ^ 31 := by
  obtain ⟨t, W, h, rfl⟩ := h
  by_cases ha : a ∈ W.map Word.bytes
  · obtain ⟨w, -, rfl⟩ := Multiset.mem_map.mp ha
    rw [count_bytes]
    exact h.small w
  · rw [Multiset.count_eq_zero.mpr ha]
    exact Nat.two_pow_pos 31

theorem Ran.keeps (h : Ran base fuel s) (hfuel : 120 ≤ fuel) : ∃ B, Keeps s.avl B ∧ ∀ a ∈ B, Clean a := by
  obtain ⟨size, hs, file, m, avl, files, presses, hrun, hm, hall, hshell⟩ := h
  have hnew := session_counted fuel size hs file [] hfuel trivial
  rw [hrun] at hnew
  cases hnew with
  | ok hk =>
    obtain ⟨t, hk⟩ := hk
    have hout := Follows.run hfuel presses (follows_start hm ⟨t, _, hk, rfl⟩) hall
    rw [hshell] at hout
    cases hout with
    | ok hf =>
      have hnil : Typed [] := fun _ hb => absurd hb List.not_mem_nil
      have htidy : (Ref.start 0).Tidy :=
        ⟨hnil, fun _ hl => absurd hl List.not_mem_nil, fun _ ha => absurd ha (Multiset.notMem_zero _)⟩
      exact ⟨_, hf.keeps, (htidy.run presses).words⟩

/-- Of any two shells on new stores, whatever was typed and loaded: `list` prints the same text
    iff every word is there equally often, and then only can `print` print the same. -/
theorem output_tells_the_words (base base' fuel : Nat) (s s' : ShellSt) (hfuel : 120 ≤ fuel) (h : Ran base fuel s)
    (h' : Ran base' fuel s') :
    ∃ out out' text text', list fuel s.avl = .ok (0, out, s.avl) ∧ list fuel s'.avl = .ok (0, out', s'.avl) ∧
      print fuel s.avl = .ok (0, [.tree text], s.avl) ∧ print fuel s'.avl = .ok (0, [.tree text'], s'.avl) ∧
      (out.flatMap Printed.text = out'.flatMap Printed.text ↔
        ∀ w : Word, avlExists fuel s.avl w.bytes = avlExists fuel s'.avl w.bytes) ∧
      (text = text' → ∀ w : Word, avlExists fuel s.avl w.bytes = avlExists fuel s'.avl w.bytes) := by
  obtain ⟨B, hk, hc⟩ := h.keeps hfuel
  obtain ⟨B', hk', hc'⟩ := h'.keeps hfuel
  obtain ⟨L, hL, hlist⟩ := hk.traverse hfuel
  obtain ⟨L', hL', hlist'⟩ := hk'.traverse hfuel
  obtain ⟨text, ht, hdrawing⟩ := hk.print hfuel
  obtain ⟨text', ht', hdrawing'⟩ := hk'.print hfuel
  have hasks : B = B' ↔ ∀ w : Word, avlExists fuel s.avl w.bytes = avlExists fuel s'.avl w.bytes := by
    constructor
    · rintro rfl w
      rw [hk.exists_eq hfuel w.nonempty w.isStr, hk'.exists_eq hfuel w.nonempty w.isStr]
    · intro hall
      obtain ⟨t, W, -, rfl⟩ := id hk
      obtain ⟨t', W', -, rfl⟩ := id hk'
      congr 1
      ext w
      have hw := hall w
      rw [hk.exists_eq hfuel w.nonempty w.isStr, hk'.exists_eq hfuel w.nonempty w.isStr, count_bytes, count_bytes] at hw
      exact Except.ok.inj hw
  refine ⟨_, _, text, text', by rw [list, hL]; rfl, by rw [list, hL']; rfl, by rw [print, ht]; rfl, by rw [print, ht']; rfl, ?_, ?_⟩
  · rw [list_text_iff hlist hlist' hc hc', hasks]
  · intro heq
    exact hasks.mp (drawing_words hdrawing (heq ▸ hdrawing') hc hc' hk.small hk'.small)

/-- A shell in which "a" is inserted and looked for, and another store. -/
theorem output_tells_the_words_two_lines : ∃ s s', Ran 0 120 s ∧ Ran 0 120 s' ∧
    ∃ out out', list 120 s.avl = .ok (0, out, s.avl) ∧ list 120 s'.avl = .ok (0, out', s'.avl) ∧
      (out.flatMap Printed.text = out'.flatMap Printed.text ↔
        ∀ w : Word, avlExists 120 s.avl w.bytes = avlExists 120 s'.avl w.bytes) := by
  obtain ⟨avl, havl, hshell⟩ := exists_ok_of_map (show (session 120 4096 (by decide) blank []).map (fun avl =>
    ((shell 0 120 (fun _ => none) (.start 0 blank avl) insertAndAsk).map ShellSt.quits).toOption) = .ok (some false) by
      decide +kernel)
  cases hs : shell 0 120 (fun _ => none) (.start 0 blank avl) insertAndAsk with
  | error e =>
    rw [hs] at hshell
    cases hshell
  | ok s =>
    have hran : Ran 0 120 s := ⟨4096, by decide, blank, blank, avl, fun _ => none, insertAndAsk, havl, rfl,
      allows_insertAndAsk, hs⟩
    have hran' : Ran 0 120 (.start 0 blank avl) := ⟨4096, by decide, blank, blank, avl, fun _ => none, [], havl, rfl,
      trivial, rfl⟩
    obtain ⟨out, out', text, text', hl, hl', -, -, hiff, -⟩ := output_tells_the_words 0 0 120 s _ (by decide) hran hran'
    exact ⟨s, _, hran, hran', out, out', hl, hl', hiff⟩

end Cs238p.Shell
