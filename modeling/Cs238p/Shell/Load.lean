/-
  Cs238p.Shell.Load — `load` (`project-3/main.c`): the words of a text file, one a line, are
  inserted into the store.

  `fgets` reads at most 255 characters into the buffer; each chunk is trimmed and inserted by
  itself, so the text of a line that goes over a chunk's end becomes several words
  (`a_long_line_is_two_words`).

  Proved, of every store that a run leaves: `load` adds exactly the texts of the lines iff in
  every line all that is not blank lies in one chunk, and no count passes 2^64
  (`load_adds_lines_iff`).
-/
import Cs238p.Avl.Runs
import Cs238p.Shell.Strtrim

namespace Cs238p.Shell

open ByteMemory Trimming Scm Avl AvlTree CountTree

/-! ## Reading a file -/

/-- `fgets` into a buffer of `n + 1` bytes, of a file that is not at its end: the characters
    that are read, and the rest of the file. -/
def fgets : Nat → List UInt8 → List UInt8 × List UInt8
  | 0, file => ([], file)
  | _ + 1, [] => ([], [])
  | n + 1, c :: file => if c = 10 then ([c], file) else (c :: (fgets n file).1, (fgets n file).2)

/-- What `load` prints. -/
inductive Note where
  /-- `error: unable to open '%s' for reading` -/
  | unableToOpen (s : List UInt8)
  /-- `error: unable to load '%s'` -/
  | unableToLoad (word : List UInt8)
  deriving DecidableEq, Repr

/-- The loop of `load`; the string in the buffer ends at its first NUL. -/
def loadLoop (fuel : Nat) : Nat → AvlSt → List UInt8 → Except Stop (List Note × AvlSt)
  | 0, _, _ => .error .fuel
  | _ + 1, s, [] => .ok ([], s)
  | k + 1, s, c :: file => do
    let (chunk, file) := fgets 255 (c :: file)
    let word := strtrim (chunk.takeWhile (· ≠ 0))
    if word ≠ [] then do
      let (r, s) ← avlInsert fuel s word
      if r ≠ 0 then return ([.unableToLoad word], s) else loadLoop fuel k s file
    else loadLoop fuel k s file

/-- `load`; `none` is a file that cannot be opened. -/
def load (fuel : Nat) (s : AvlSt) (pathname : List UInt8) : Option (List UInt8) → Except Stop (List Note × AvlSt)
  | none => .ok ([.unableToOpen pathname], s)
  | some file => loadLoop fuel (file.length + 1) s file

/-! ## Lines -/

structure TextFile where
  bytes : List UInt8
  noNul : ∀ b ∈ bytes, b ≠ 0
  /-- Sizes of files are signed. -/
  size_lt : bytes.length < 2 ^ 63

/-- The trimmed texts of the lines that have one. -/
def lineTexts (file : List UInt8) : List (List UInt8) := (file.splitOn 10).flatMap (piece isspace)

/-- The store has the texts of the lines, and what it had. -/
def Added (fuel : Nat) (s s' : AvlSt) (file : List UInt8) : Prop :=
  ∀ v : Word, ∃ n, avlExists fuel s v.bytes = .ok n ∧ avlExists fuel s' v.bytes = .ok (n + (lineTexts file).count v.bytes)

variable {file line rest : List UInt8} {n fuel : Nat}

theorem fgets_lt (n : Nat) (c : UInt8) (file : List UInt8) : (fgets (n + 1) (c :: file)).2.length < (c :: file).length := by
  induction n generalizing c file with
  | zero =>
    rw [fgets]
    split <;> simp [fgets]
  | succ n ih =>
    rw [fgets]
    split
    · simp
    · cases file with
      | nil => simp [fgets]
      | cons d file =>
        have := ih d file
        simp only [List.length_cons] at this ⊢
        omega

/-- The texts of the chunks that have one. -/
def chunkTexts : List UInt8 → List (List UInt8)
  | [] => []
  | c :: file => piece isspace (fgets 255 (c :: file)).1 ++ chunkTexts (fgets 255 (c :: file)).2
termination_by file => file.length
decreasing_by exact fgets_lt 254 c file

theorem chunkTexts_of_ne (h : file ≠ []) :
    chunkTexts file = piece isspace (fgets 255 file).1 ++ chunkTexts (fgets 255 file).2 := by
  cases file with
  | nil => exact absurd rfl h
  | cons c file => rw [chunkTexts]

/-- A chunk inside a line. -/
theorem fgets_inside (h : 10 ∉ line) (hn : n ≤ line.length) (rest : List UInt8) :
    fgets n (line ++ rest) = (line.take n, line.drop n ++ rest) := by
  induction line generalizing n with
  | nil =>
    rw [Nat.le_zero.mp hn]
    rfl
  | cons c line ih =>
    rw [List.mem_cons, not_or] at h
    cases n with
    | zero => rfl
    | succ n =>
      rw [List.cons_append, fgets, if_neg (Ne.symm h.1), ih h.2 (Nat.le_of_succ_le_succ hn)]
      rfl

/-- A chunk that ends with its line. -/
theorem fgets_newline (h : 10 ∉ line) (hn : line.length < n) (rest : List UInt8) :
    fgets n (line ++ 10 :: rest) = (line ++ [10], rest) := by
  induction line generalizing n with
  | nil =>
    obtain ⟨n, rfl⟩ : ∃ k, n = k + 1 := ⟨n - 1, by rw [List.length_nil] at hn; omega⟩
    rw [List.nil_append, fgets, if_pos rfl]
    rfl
  | cons c line ih =>
    rw [List.mem_cons, not_or] at h
    rw [List.length_cons] at hn
    obtain ⟨n, rfl⟩ : ∃ k, n = k + 1 := ⟨n - 1, by omega⟩
    rw [List.cons_append, fgets, if_neg (Ne.symm h.1), ih h.2 (by omega)]
    rfl

/-- A chunk that ends with the file. -/
theorem fgets_last (h : 10 ∉ line) (hn : line.length ≤ n) : fgets n line = (line, []) := by
  induction line generalizing n with
  | nil => cases n <;> rfl
  | cons c line ih =>
    rw [List.mem_cons, not_or] at h
    rw [List.length_cons] at hn
    obtain ⟨n, rfl⟩ : ∃ k, n = k + 1 := ⟨n - 1, by omega⟩
    rw [fgets, if_neg (Ne.symm h.1), ih h.2 (by omega)]

theorem blank_newline : Blank isspace [10] := by decide

/-- The chunks of a line are its blocks of 255 characters; the newline adds a blank. -/
theorem chunkTexts_line (h : 10 ∉ line) (rest : List UInt8) :
    chunkTexts (line ++ 10 :: rest) = pieces isspace 255 line ++ chunkTexts rest := by
  have hne : ∀ l : List UInt8, l ++ 10 :: rest ≠ [] := fun l h0 => by
    have := (List.append_eq_nil_iff.mp h0).2
    cases this
  induction line using block_induction (show 0 < 255 by decide) with
  | short l hle =>
    rw [pieces_short hle, chunkTexts_of_ne (hne l)]
    by_cases hlt : l.length < 255
    · rw [fgets_newline h hlt, piece, piece, trim_append_blank blank_newline]
    · -- the newline is a chunk of its own
      rw [fgets_inside h (by omega), List.take_of_length_le hle, List.drop_of_length_le hle]
      have hlone : chunkTexts ([] ++ 10 :: rest) = chunkTexts rest := by
        rw [chunkTexts_of_ne (hne []), fgets_newline List.not_mem_nil (by decide), List.nil_append,
          piece_blank blank_newline, List.nil_append]
      rw [hlone]
  | long l hlt ih =>
    rw [pieces_long (by decide) hlt, chunkTexts_of_ne (hne l), fgets_inside h (Nat.le_of_lt hlt), List.append_assoc,
      ih fun hm => h (List.mem_of_mem_drop hm)]

theorem chunkTexts_last (h : 10 ∉ line) : chunkTexts line = pieces isspace 255 line := by
  induction line using block_induction (show 0 < 255 by decide) with
  | short l hle =>
    rw [pieces_short hle]
    cases l with
    | nil =>
      rw [chunkTexts, piece_blank blank_nil]
    | cons c l => rw [chunkTexts, fgets_last h hle, chunkTexts, List.append_nil]
  | long l hlt ih =>
    have hne : l ≠ [] := by
      rintro rfl
      cases hlt
    have hin := fgets_inside h (Nat.le_of_lt hlt) []
    rw [List.append_nil, List.append_nil] at hin
    rw [pieces_long (by decide) hlt, chunkTexts_of_ne hne, hin, ih fun hm => h (List.mem_of_mem_drop hm)]

/-- The chunks of a file, line by line. -/
theorem chunkTexts_eq (file : List UInt8) : chunkTexts file = (file.splitOn 10).flatMap (pieces isspace 255) := by
  induction hk : file.length using Nat.strong_induction_on generalizing file with
  | _ k ih =>
    by_cases hm : 10 ∈ file
    · obtain ⟨line, rest, rfl, hline⟩ := List.eq_append_cons_of_mem hm
      rw [chunkTexts_line hline, List.splitOn_append_cons_self_of_not_mem hline, List.flatMap_cons,
        ih rest.length (by rw [← hk]; simp; omega) rest rfl]
    · rw [chunkTexts_last hm, List.splitOn_eq_singleton hm, List.flatMap_singleton]

/-! ## How many chunks have a text -/

theorem chunkTexts_length_le (file : List UInt8) : (chunkTexts file).length ≤ file.length := by
  induction file using chunkTexts.induct with
  | case1 =>
    rw [chunkTexts]
    exact Nat.le_refl 0
  | case2 c file ih =>
    have hlt : (fgets 255 (c :: file)).2.length < (c :: file).length := fgets_lt 254 c file
    have hone := piece_length_le (p := isspace) (fgets 255 (c :: file)).1
    rw [chunkTexts, List.length_append]
    omega

theorem flatMap_pieces_of_oneBlock {lines : List (List UInt8)} (h : ∀ l ∈ lines, OneBlock isspace 255 l) :
    lines.flatMap (pieces isspace 255) = lines.flatMap (piece isspace) :=
  List.flatMap_congr fun l hl => pieces_eq (by decide) (h l hl)

theorem length_flatMap_le (lines : List (List UInt8)) :
    (lines.flatMap (piece isspace)).length ≤ (lines.flatMap (pieces isspace 255)).length := by
  induction lines with
  | nil => exact Nat.le_refl _
  | cons l lines ih =>
    rw [List.flatMap_cons, List.flatMap_cons, List.length_append, List.length_append]
    have hl : (piece isspace l).length ≤ (pieces isspace 255 l).length := by
      by_cases hone : OneBlock isspace 255 l
      · rw [pieces_eq (by decide) hone]
      · exact Nat.le_of_lt (lt_pieces (by decide) hone)
    omega

/-- A line that is cut makes more texts than there are lines with one. -/
theorem length_flatMap_lt {lines : List (List UInt8)} (h : ¬ ∀ l ∈ lines, OneBlock isspace 255 l) :
    (lines.flatMap (piece isspace)).length < (lines.flatMap (pieces isspace 255)).length := by
  induction lines with
  | nil => exact absurd (fun l hl => absurd hl List.not_mem_nil) h
  | cons l lines ih =>
    rw [List.flatMap_cons, List.flatMap_cons, List.length_append, List.length_append]
    by_cases hone : OneBlock isspace 255 l
    · have hrest := ih fun hall => h (List.forall_mem_cons.mpr ⟨hone, hall⟩)
      rw [pieces_eq (by decide) hone]
      omega
    · have hl := lt_pieces (by decide) hone
      have hrest := length_flatMap_le lines
      omega

/-- Then some text is there more often. -/
theorem exists_count_lt (h : ¬ ∀ l ∈ file.splitOn 10, OneBlock isspace 255 l) :
    ∃ text ∈ chunkTexts file, (lineTexts file).count text < (chunkTexts file).count text := by
  by_contra hno
  push Not at hno
  have hle := (List.subperm_ext_iff.mpr hno).length_le
  rw [chunkTexts_eq] at hle
  have hlt := length_flatMap_lt h
  rw [lineTexts] at hle
  omega

/-! ## Loading -/

variable {s s' : AvlSt} {t : CountTree Loc}

/-- A text that is inserted is a word. -/
theorem exists_word {text : List UInt8} (hne : text ≠ []) (hn : ∀ b ∈ text, b ≠ 0) : ∃ w : Word, w.bytes = text :=
  ⟨⟨text, hne, hn⟩, rfl⟩

theorem mem_fgets (n : Nat) (file : List UInt8) : ∀ b, b ∈ (fgets n file).1 ∨ b ∈ (fgets n file).2 → b ∈ file := by
  induction n generalizing file with
  | zero => simp [fgets]
  | succ n ih =>
    cases file with
    | nil => simp [fgets]
    | cons c file =>
      intro b hb
      rw [fgets] at hb
      split at hb
      · rcases hb with hb | hb
        · rw [List.mem_singleton.mp hb]
          exact List.mem_cons_self
        · exact List.mem_cons_of_mem _ hb
      · rcases hb with hb | hb
        · rcases List.mem_cons.mp hb with rfl | hb
          · exact List.mem_cons_self
          · exact List.mem_cons_of_mem _ (ih file b (Or.inl hb))
        · exact List.mem_cons_of_mem _ (ih file b (Or.inr hb))

theorem chunkTexts_word (hn : ∀ b ∈ file, b ≠ 0) {text : List UInt8} (h : text ∈ chunkTexts file) :
    ∃ w : Word, w.bytes = text := by
  induction file using chunkTexts.induct with
  | case1 =>
    rw [chunkTexts] at h
    cases h
  | case2 c file ih =>
    have hmem := mem_fgets 255 (c :: file)
    rw [chunkTexts, List.mem_append] at h
    rcases h with h | h
    · rw [piece] at h
      split at h
      · cases h
      · rename_i hne
        rw [List.mem_singleton.mp h]
        exact exists_word hne fun b hb => hn b (hmem b (Or.inl (mem_of_mem_trim hb)))
    · exact ih (fun b hb => hn b (hmem b (Or.inr hb))) h

/-- One more of a word, in 64 bits. -/
theorem find_inserted (h : Holding s t) (w v : Word) : ((words t).insert next w).find v =
    ((words t).find v + [w.bytes].count v.bytes) % 2 ^ 64 := by
  have hlt := h.owns.shaped.find_lt v
  rw [find_insert h.ordered, List.count_singleton]
  by_cases hv : v = w
  · subst hv
    rw [if_pos rfl, beq_self_eq_true, if_pos rfl]
    cases hp : (words t).present v with
    | true => rfl
    | false =>
      rw [find_of_absent hp]
      rfl
  · rw [if_neg hv, if_neg (fun he => hv (Word.ext (eq_of_beq he).symm)), Nat.add_zero, Nat.mod_eq_of_lt hlt]

/-- Every text of a chunk is inserted. -/
theorem loadLoop_spec (hfuel : 120 ≤ fuel) : ∀ (k : Nat) {s : AvlSt} {t : CountTree Loc} {file : List UInt8},
    Holding s t → (∀ b ∈ file, b ≠ 0) → file.length < k →
    Outcome Full (loadLoop fuel k s file) fun q => q.1 = [] ∧ ∃ t', Holding q.2 t' ∧
      ∀ v : Word, (words t').find v = ((words t).find v + (chunkTexts file).count v.bytes) % 2 ^ 64 := by
  intro k
  induction k with
  | zero => exact fun _ _ hk => absurd hk (Nat.not_lt_zero _)
  | succ k ih =>
    intro s t file h hn hk
    cases file with
    | nil =>
      refine .ok ⟨rfl, t, h, fun v => ?_⟩
      rw [chunkTexts, List.count_nil, Nat.add_zero, Nat.mod_eq_of_lt (h.owns.shaped.find_lt v)]
    | cons c file =>
      have hlt : (fgets 255 (c :: file)).2.length < (c :: file).length := fgets_lt 254 c file
      have hmem := mem_fgets 255 (c :: file)
      have hchunk : (fgets 255 (c :: file)).1.takeWhile (· ≠ 0) = (fgets 255 (c :: file)).1 :=
        List.takeWhile_eq_self_iff.mpr fun b hb => by simpa using hn b (hmem b (Or.inl hb))
      have hrest : ∀ b ∈ (fgets 255 (c :: file)).2, b ≠ 0 := fun b hb => hn b (hmem b (Or.inr hb))
      rw [loadLoop, chunkTexts]
      simp only [hchunk, piece, strtrim]
      by_cases hnil : trim isspace (fgets 255 (c :: file)).1 = []
      · rw [if_neg (not_not_intro hnil), if_pos hnil, List.nil_append]
        exact ih h hrest (by omega)
      rw [if_pos hnil, if_neg hnil]
      obtain ⟨w, hw⟩ := exists_word hnil fun b hb => hn b (hmem b (Or.inl (mem_of_mem_trim hb)))
      have hdelta := h.owns.delta_le h.avl
      rw [← hw]
      refine ((h.insert_spec w (by omega)).weaken fun e he => he.1).bind ?_
      intro q hq
      obtain ⟨r, s₁⟩ := q
      obtain ⟨rfl, t₁, h₁, hw₁, -⟩ := hq
      simp only [ne_eq, not_true_eq_false, if_false]
      apply (ih h₁ hrest (by omega)).mono
      intro q hq
      obtain ⟨hnotes, t', h', hfind⟩ := hq
      refine ⟨hnotes, t', h', fun v => ?_⟩
      rw [hfind, hw₁, find_inserted h, List.count_append, Nat.mod_add_mod, Nat.add_assoc]

/-- In every store that a run leaves: `load` of a text file prints nothing and returns, or
    stops for want of room; and it adds the texts of the lines iff in every line all that is
    not blank lies in one block of 255 characters, and all counts stay below 2^64. -/
theorem load_adds_lines_iff (fuel size : Nat) (hs : vmStart + size < 2 ^ 64) (region : Mem) (ops : List Avl.Op)
    (s : AvlSt) (hfuel : 120 ≤ fuel) (hrun : session fuel size hs region ops = .ok s) (pathname : List UInt8)
    (file : TextFile) :
    Outcome Full (load fuel s pathname (some file.bytes)) fun q => q.1 = [] ∧ (Added fuel s q.2 file.bytes ↔
      (∀ line ∈ file.bytes.splitOn 10, OneBlock isspace 255 line) ∧
        ∀ (v : Word) (n : Nat), avlExists fuel s v.bytes = .ok n → n + (lineTexts file.bytes).count v.bytes < 2 ^ 64) := by
  have hholds := session_holding fuel size hs region ops hfuel
  rw [hrun] at hholds
  cases hholds with
  | ok hh =>
    obtain ⟨t, h, -⟩ := hh
    have hdelta := h.owns.delta_le h.avl
    apply (loadLoop_spec hfuel _ h file.noNul (Nat.lt_succ_self _)).mono
    intro q hq
    obtain ⟨hnotes, t', h', hfind⟩ := hq
    have hdelta' := h'.owns.delta_le h'.avl
    have hex : ∀ v : Word, avlExists fuel s v.bytes = .ok ((words t).find v) := fun v => h.exists_spec (by omega)
    have hex' : ∀ v : Word, avlExists fuel q.2 v.bytes = .ok ((words t').find v) := fun v => h'.exists_spec (by omega)
    refine ⟨hnotes, ?_, ?_⟩
    · intro hadded
      have hsum : ∀ v : Word, (words t').find v = (words t).find v + (lineTexts file.bytes).count v.bytes := by
        intro v
        obtain ⟨n, hn, hn'⟩ := hadded v
        rw [hex] at hn
        rw [hex'] at hn'
        cases hn
        exact Except.ok.inj hn'
      constructor
      · by_contra hcut
        obtain ⟨text, hm, hlt⟩ := exists_count_lt hcut
        -- a text that was inserted too often
        obtain ⟨w, hw⟩ := chunkTexts_word file.noNul hm
        subst hw
        have h1 := hsum w
        have h2 := hfind w
        have h3 := List.count_le_length (a := w.bytes) (l := chunkTexts file.bytes)
        have h4 := chunkTexts_length_le file.bytes
        have h5 := file.size_lt
        omega
      · intro v n hn
        rw [hex] at hn
        cases hn
        rw [← hsum]
        exact h'.owns.shaped.find_lt v
    · rintro ⟨hone, hroom⟩ v
      have hroom := hroom v _ (hex v)
      refine ⟨_, hex v, ?_⟩
      rw [hex', hfind, chunkTexts_eq, flatMap_pieces_of_oneBlock hone, ← lineTexts, Nat.mod_eq_of_lt hroom]

/-- The lines " b", "" and "ab". -/
def shortLines : TextFile := ⟨[32, 98, 10, 10, 97, 98], noNul_of_all (by decide), by decide⟩

theorem load_adds_lines_iff_short_lines : ∃ s, session 120 4096 (by decide) blank fewWords = .ok s ∧
    Outcome Full (load 120 s [102] (some shortLines.bytes)) fun q => q.1 = [] ∧ (Added 120 s q.2 shortLines.bytes ↔
      (∀ line ∈ shortLines.bytes.splitOn 10, OneBlock isspace 255 line) ∧
        ∀ (v : Word) (n : Nat), avlExists 120 s v.bytes = .ok n →
          n + (lineTexts shortLines.bytes).count v.bytes < 2 ^ 64) := by
  obtain ⟨s, hs, -⟩ := fewWords_a
  exact ⟨s, hs, load_adds_lines_iff 120 4096 (by decide) blank fewWords s (by decide) hs [102] shortLines⟩

/-- One line of 254 blanks and "ab". -/
def longLine : TextFile := ⟨List.replicate 254 32 ++ [97, 98], noNul_of_all (by decide +kernel), by decide +kernel⟩

theorem lineTexts_longLine : (lineTexts longLine.bytes).count [97] = 0 := by decide +kernel

/-- What is there of "a" before and after. -/
theorem load_longLine : (session 120 4096 (by decide) blank [] >>= fun s =>
    (load 120 s [102] (some longLine.bytes)).map fun q =>
      ((avlExists 120 s [97]).toOption, (avlExists 120 q.2 [97]).toOption)) = .ok (some 0, some 1) := by decide +kernel

/-- The line is no "a", and there is one afterwards. -/
theorem a_long_line_is_two_words : ¬ ∀ (s s' : AvlSt) (notes : List Note) (file : TextFile),
    session 120 4096 (by decide) blank [] = .ok s → load 120 s [102] (some file.bytes) = .ok (notes, s') →
      Added 120 s s' file.bytes := by
  intro hall
  have hrun := load_longLine
  cases hs : session 120 4096 (by decide) blank [] with
  | error e =>
    rw [hs] at hrun
    cases hrun
  | ok s =>
    rw [hs, ok_bind] at hrun
    obtain ⟨q, hq, he⟩ := exists_ok_of_map hrun
    obtain ⟨hn, hn'⟩ := Prod.mk.inj he
    obtain ⟨m, hm, hm'⟩ := hall s q.2 q.1 longLine hs hq (.rep 97 (by decide) 0)
    change avlExists 120 s [97] = .ok m at hm
    change avlExists 120 q.2 [97] = .ok (m + (lineTexts longLine.bytes).count [97]) at hm'
    rw [hm] at hn
    rw [hm', lineTexts_longLine] at hn'
    cases hn
    cases hn'

end Cs238p.Shell
