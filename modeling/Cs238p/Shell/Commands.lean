/-
  Cs238p.Shell.Commands — the commands of the word store (`project-3/main.c`), and what each
  one shows of a multiset of words.

  Proved: on a store that keeps a multiset, every command prints what `Answers` says of the
  multiset, leaves a store that keeps what `served` makes of it, and ends the shell iff it is
  `quit`, or stops for want of room (`perform_spec`).
-/
import Cs238p.Avl.Print
import Cs238p.Shell.Dispatch
import Cs238p.Shell.Load

namespace Cs238p.Shell

open ByteMemory Trimming Scm Avl AvlTree CountTree

/-! ## Printing -/

/-- What is printed. -/
inductive Printed where
  | doesNotExist (s : List UInt8)
  | existsTimes (s : List UInt8) (count : Nat)
  | failedToInsert (s : List UInt8)
  | failedToDelete (s : List UInt8)
  | note (n : Note)
  | listed (s : List UInt8) (count : Nat)
  | tree (text : List UInt8)
  | info (items unique utilized capacity : Nat)
  | commands
  | badCommand (s : List UInt8)
  deriving DecidableEq, Repr

def commandsText : String :=
  "\n-- commands -- \n" ++
  "  quit          : exit the program\n" ++
  "  help          : prints this menu\n" ++
  "  info          : report info\n" ++
  "  list          : list words in sorted order\n" ++
  "  print         : pretty print the tree\n" ++
  "  load pathname : load words from file @ 'pathname'\n" ++
  "  insert word   : insert 'word'\n" ++
  "  exists word   : check if 'word' exists\n" ++
  "  delete word   : delete 'word' if it exists\n" ++
  "\n"

def Note.text : Note → List UInt8
  | .unableToOpen s => face "error: unable to open '" ++ s ++ face "' for reading\n"
  | .unableToLoad s => face "error: unable to load '" ++ s ++ face "'"

/-- The characters. -/
def Printed.text : Printed → List UInt8
  | .doesNotExist s => face "'" ++ s ++ face "' does not exist\n"
  | .existsTimes s count => face "'" ++ s ++ face "' x " ++ decimal count ++ face " exists\n"
  | .failedToInsert s => face "error: failed to insert '" ++ s ++ face "'"
  | .failedToDelete s => face "error: failed to delete '" ++ s ++ face "'"
  | .note n => n.text
  | .listed s count => face "'" ++ s ++ face "' x " ++ decimal count ++ face "\n"
  | .tree text => text
  | .info items unique utilized capacity =>
    face "\n-- info -- \n" ++ face "  words    : " ++ decimal items ++ face " (total)\n" ++ face "  words    : " ++
      decimal unique ++ face " (unique)\n" ++ face "  utilized : " ++ decimal utilized ++ face " bytes\n" ++
      face "  capacity : " ++ decimal capacity ++ face " bytes\n" ++ face "\n"
  | .commands => face commandsText
  | .badCommand s => face "error: bad command/argument (" ++ s ++ face ")\n"

/-! ## The commands -/

/-- What a command returns: its value, what it printed, and the store. -/
abbrev Result := Int × List Printed × AvlSt

variable (fuel : Nat) (files : List UInt8 → Option TextFile) (avl : AvlSt) (s : List UInt8)

def exists_ : Except Stop Result := do
  let count ← avlExists fuel avl s
  if count = 0 then return (0, [.doesNotExist s], avl) else return (0, [.existsTimes s count], avl)

def insert : Except Stop Result := do
  let (r, avl) ← avlInsert fuel avl s
  if r ≠ 0 then return (0, [.failedToInsert s], avl) else return (0, [], avl)

def delete : Except Stop Result := do
  let count ← avlExists fuel avl s
  if count = 0 then return (0, [.doesNotExist s], avl)
  else do
    let (r, avl) ← avlDelete fuel avl s
    if r ≠ 0 then return (0, [.failedToDelete s], avl) else return (0, [], avl)

def loadFile : Except Stop Result := do
  let (notes, avl) ← load fuel avl s ((files s).map TextFile.bytes)
  return (0, notes.map .note, avl)

def listWord (e : List UInt8 × Nat) : Printed := .listed e.1 e.2

def list : Except Stop Result := do
  let visits ← avlTraverse fuel avl
  return (0, visits.map listWord, avl)

def print : Except Stop Result := do
  let text ← avlPrint fuel avl
  return (0, [.tree text], avl)

def info : Result := (0, [.info (avlItems avl) (avlUnique avl) (avlScmUtilized avl) (avlScmCapacity avl)], avl)

def help : Result := (0, [.commands], avl)

def quit : Result := (1, [], avl)

/-- `CMDS[i].fnc(avl, s)`. -/
def fnc : Command → Except Stop Result
  | .quit => return quit avl
  | .help => return help avl
  | .info => return info avl
  | .list => list fuel avl
  | .print => print fuel avl
  | .load => loadFile fuel files avl s
  | .insert => insert fuel avl s
  | .exists_ => exists_ fuel avl s
  | .delete => delete fuel avl s

/-- The end of `shell_fnc`. -/
def perform : Selected → Except Stop Result
  | .run c s => fnc fuel files avl s c
  | .bad s => return (0, [.badCommand s], avl)

/-! ## A multiset of words -/

/-- The words and their counts, in the order of `strcmp`. -/
structure Listing (B : Multiset (List UInt8)) (L : List (List UInt8 × Nat)) : Prop where
  sorted : L.Pairwise fun x y => strcmp x.1 y.1 < 0
  complete : ∀ a c, (a, c) ∈ L ↔ a ∈ B ∧ c = B.count a

/-- The text of a balanced, ordered tree with these words. -/
def Drawing (B : Multiset (List UInt8)) (text : List UInt8) : Prop :=
  ∃ T : CountTree Word, T.Avl ∧ T.Ordered ∧ T.Positive ∧ (bag T).map Word.bytes = B ∧ text = render 0 T ++ [10]

/-- The words after a command. -/
def served (B : Multiset (List UInt8)) : Selected → Multiset (List UInt8)
  | .run .insert a => a ::ₘ B
  | .run .delete a => B.erase a
  | .run .load a => B + ((files a).elim [] fun f => chunkTexts f.bytes : List (List UInt8))
  | _ => B

/-- What a command prints. -/
def Answers (B : Multiset (List UInt8)) (out : List Printed) : Selected → Prop
  | .run .quit _ => out = []
  | .run .help _ => out = [.commands]
  | .run .info _ => ∃ utilized capacity, out = [.info (B.card % 2 ^ 64) B.toFinset.card utilized capacity]
  | .run .list _ => ∃ L, Listing B L ∧ out = L.map listWord
  | .run .print _ => ∃ text, Drawing B text ∧ out = [.tree text]
  | .run .load a => out = if (files a).isSome then [] else [.note (.unableToOpen a)]
  | .run .insert _ => out = []
  | .run .exists_ a => out = [if a ∈ B then .existsTimes a (B.count a) else .doesNotExist a]
  | .run .delete a => out = if a ∈ B then [] else [.doesNotExist a]
  | .bad a => out = [.badCommand a]

/-- The command's argument, if it takes one, is a word. -/
def Selected.Fit : Selected → Prop
  | .run .load a | .run .insert a | .run .exists_ a | .run .delete a => a ≠ [] ∧ ∀ b ∈ a, b ≠ 0
  | _ => True

/-- The store keeps the words `B`. -/
def Keeps (s : AvlSt) (B : Multiset (List UInt8)) : Prop := ∃ t W, Counted s t W ∧ W.map Word.bytes = B

/-! ## The store -/

variable {fuel : Nat} {files : List UInt8 → Option TextFile} {s s' : AvlSt} {t : CountTree Loc} {W : Multiset Word}
  {B : Multiset (List UInt8)} {a : List UInt8} {w : Word}

theorem bytes_injective : Function.Injective Word.bytes := fun _ _ => Word.ext

@[simp] theorem count_bytes (W : Multiset Word) (w : Word) : (W.map Word.bytes).count w.bytes = W.count w :=
  Multiset.count_map_eq_count' _ _ bytes_injective _

@[simp] theorem mem_bytes : w.bytes ∈ W.map Word.bytes ↔ w ∈ W := Multiset.mem_map_of_injective bytes_injective

theorem counted_insert (h : Counted s t W) (hfuel : 120 ≤ fuel) (w : Word) (hc : W.count w + 1 < 2 ^ 31) :
    Outcome Full (avlInsert fuel s w.bytes) fun q => q.1 = 0 ∧ ∃ t', Counted q.2 t' (w ::ₘ W) := by
  have hdelta := h.holding.owns.delta_le h.holding.avl
  have hroom : t.delta + 1 < fuel := by omega
  have hzero := (h.holding.insert_spec w hroom).weaken fun _ he => he.1
  have hkept : Outcome Full ((avlInsert fuel s w.bytes).map Prod.snd) fun s' => ∃ t', Counted s' t' (w ::ₘ W) :=
    insert_counted h (by omega) ⟨hc, trivial⟩
  exact (hzero.both hkept.of_map).mono fun q hq => ⟨hq.1.1, hq.2⟩

theorem counted_delete (h : Counted s t W) (hfuel : 120 ≤ fuel) (hw : w ∈ W) :
    Outcome Full (avlDelete fuel s w.bytes) fun q => q.1 = 0 ∧ ∃ t', Counted q.2 t' (W.erase w) := by
  have hdelta := h.holding.owns.delta_le h.holding.avl
  have hfind : (words t).find w = W.count w := h.bag ▸ find_eq h.holding.ordered w
  have hpos := Multiset.count_pos.mpr hw
  have hint : toInt32 ((words t).find w) ≠ 0 := by
    rw [hfind, toInt32_small (h.small w)]
    omega
  have hroom : t.delta + 1 < fuel := by omega
  have hzero := (h.holding.delete_spec w hroom hint).weaken fun _ he => he.1
  have hkept : Outcome Full ((avlDelete fuel s w.bytes).map Prod.snd) fun s' => ∃ t', Counted s' t' (W.erase w) :=
    delete_counted h (by omega) hw
  exact (hzero.both hkept.of_map).mono fun q hq => ⟨hq.1.1, hq.2⟩

theorem counted_exists (h : Counted s t W) (hfuel : 120 ≤ fuel) (w : Word) :
    avlExists fuel s w.bytes = .ok (W.count w) := by
  have hdelta := h.holding.owns.delta_le h.holding.avl
  rw [h.holding.exists_spec (by omega), find_eq h.holding.ordered, h.bag]

namespace Keeps

theorem insert (h : Keeps s B) (hfuel : 120 ≤ fuel) (hne : a ≠ []) (hn : ∀ b ∈ a, b ≠ 0) (hc : B.count a + 1 < 2 ^ 31) :
    Outcome Full (avlInsert fuel s a) fun q => q.1 = 0 ∧ Keeps q.2 (a ::ₘ B) := by
  obtain ⟨t, W, h, rfl⟩ := h
  obtain ⟨w, rfl⟩ := exists_word hne hn
  rw [count_bytes] at hc
  apply (counted_insert h hfuel w hc).mono
  intro q hq
  obtain ⟨hr, t', h'⟩ := hq
  exact ⟨hr, t', _, h', Multiset.map_cons _ _ _⟩

theorem delete (h : Keeps s B) (hfuel : 120 ≤ fuel) (ha : a ∈ B) :
    Outcome Full (avlDelete fuel s a) fun q => q.1 = 0 ∧ Keeps q.2 (B.erase a) := by
  obtain ⟨t, W, h, rfl⟩ := h
  obtain ⟨w, hw, rfl⟩ := Multiset.mem_map.mp ha
  apply (counted_delete h hfuel hw).mono
  intro q hq
  obtain ⟨hr, t', h'⟩ := hq
  exact ⟨hr, t', _, h', Multiset.map_erase _ bytes_injective _ _⟩

theorem exists_eq (h : Keeps s B) (hfuel : 120 ≤ fuel) (hne : a ≠ []) (hn : ∀ b ∈ a, b ≠ 0) :
    avlExists fuel s a = .ok (B.count a) := by
  obtain ⟨t, W, h, rfl⟩ := h
  obtain ⟨w, rfl⟩ := exists_word hne hn
  rw [counted_exists h hfuel, count_bytes]

theorem traverse (h : Keeps s B) (hfuel : 120 ≤ fuel) : ∃ L, avlTraverse fuel s = .ok L ∧ Listing B L := by
  obtain ⟨t, W, h, rfl⟩ := h
  have hdelta := h.holding.owns.delta_le h.holding.avl
  have hroom : t.delta + 1 < fuel := by omega
  obtain ⟨L, hL, hsorted, hmem⟩ := h.traverse hroom
  refine ⟨_, hL, List.pairwise_map.mpr hsorted, ?_⟩
  intro a c
  rw [List.mem_map]
  constructor
  · rintro ⟨⟨w, c'⟩, he, hv⟩
    obtain ⟨rfl, rfl⟩ := Prod.mk.inj hv
    obtain ⟨hw, rfl⟩ := (hmem w c').mp he
    exact ⟨mem_bytes.mpr hw, (count_bytes W w).symm⟩
  · rintro ⟨ha, rfl⟩
    obtain ⟨w, hw, rfl⟩ := Multiset.mem_map.mp ha
    exact ⟨(w, W.count w), (hmem w _).mpr ⟨hw, rfl⟩, by rw [visit, count_bytes]⟩

theorem print (h : Keeps s B) (hfuel : 120 ≤ fuel) : ∃ text, avlPrint fuel s = .ok text ∧ Drawing B text := by
  obtain ⟨t, W, h, rfl⟩ := h
  have hdelta := h.holding.owns.delta_le h.holding.avl
  exact ⟨_, h.holding.print_spec (by omega), words t, (avl_words _).mpr h.holding.avl, h.holding.ordered, h.positive,
    by rw [h.bag], rfl⟩

theorem items (h : Keeps s B) : avlItems s = B.card % 2 ^ 64 := by
  obtain ⟨t, W, h, rfl⟩ := h
  rw [h.items, Multiset.card_map]

theorem unique (h : Keeps s B) : avlUnique s = B.toFinset.card := by
  obtain ⟨t, W, h, rfl⟩ := h
  rw [h.unique, Multiset.toFinset_map, Finset.card_image_of_injective _ bytes_injective]

/-- Every text of a chunk is inserted. -/
theorem loadLoop (hfuel : 120 ≤ fuel) : ∀ (k : Nat) {s : AvlSt} {B : Multiset (List UInt8)} {file : List UInt8}, Keeps s B →
    (∀ b ∈ file, b ≠ 0) → file.length < k → (∀ a, (B + (chunkTexts file : List (List UInt8))).count a < 2 ^ 31) →
    Outcome Full (loadLoop fuel k s file) fun q => q.1 = [] ∧ Keeps q.2 (B + (chunkTexts file : List (List UInt8))) := by
  intro k
  induction k with
  | zero => exact fun _ _ hk => absurd hk (Nat.not_lt_zero _)
  | succ k ih =>
    intro s B file h hn hk hsmall
    cases file with
    | nil =>
      rw [chunkTexts]
      exact .ok ⟨rfl, by rwa [Multiset.coe_nil, add_zero]⟩
    | cons c file =>
      have hlt : (fgets 255 (c :: file)).2.length < (c :: file).length := fgets_lt 254 c file
      have hmem := mem_fgets 255 (c :: file)
      have hchunk : (fgets 255 (c :: file)).1.takeWhile (· ≠ 0) = (fgets 255 (c :: file)).1 :=
        List.takeWhile_eq_self_iff.mpr fun b hb => by simpa using hn b (hmem b (Or.inl hb))
      have hrest : ∀ b ∈ (fgets 255 (c :: file)).2, b ≠ 0 := fun b hb => hn b (hmem b (Or.inr hb))
      rw [chunkTexts] at hsmall ⊢
      rw [Shell.loadLoop]
      simp only [hchunk, piece, strtrim] at hsmall ⊢
      by_cases hnil : trim isspace (fgets 255 (c :: file)).1 = []
      · rw [if_pos hnil, List.nil_append] at hsmall ⊢
        rw [if_neg (not_not_intro hnil)]
        exact ih h hrest (by omega) hsmall
      · -- one word, and then the rest of the file
        rw [if_neg hnil, List.singleton_append, ← Multiset.cons_coe, Multiset.add_cons, ← Multiset.cons_add] at hsmall ⊢
        rw [if_pos hnil]
        have hword := hsmall (trim isspace (fgets 255 (c :: file)).1)
        rw [Multiset.count_add, Multiset.count_cons_self] at hword
        refine (h.insert hfuel hnil (fun b hb => hn b (hmem b (Or.inl (mem_of_mem_trim hb)))) (by omega)).bind ?_
        intro q hq
        obtain ⟨r, s₁⟩ := q
        obtain ⟨rfl, h₁⟩ := hq
        simp only [ne_eq, not_true_eq_false, if_false]
        exact ih h₁ hrest (by omega) hsmall

end Keeps

/-! ## A command -/

/-- A command that has returned. -/
structure Done (files : List UInt8 → Option TextFile) (B : Multiset (List UInt8)) (sel : Selected) (q : Result) : Prop where
  quits : q.1 ≠ 0 ↔ ∃ a, sel = .run .quit a
  prints : Answers files B q.2.1 sel
  keeps : Keeps q.2.2 (served files B sel)

/-- A command prints what `Answers` says and makes of the words what `served` says, and only
    `quit` is the last one; multiplicities stay below 2^31. -/
theorem perform_spec (h : Keeps s B) (hfuel : 120 ≤ fuel) (sel : Selected) (hfit : sel.Fit)
    (hsmall : ∀ a, (served files B sel).count a < 2 ^ 31) :
    Outcome Full (perform fuel files s sel) (Done files B sel) := by
  cases sel with
  | bad a => exact .ok ⟨by simp, rfl, h⟩
  | run c a =>
    rw [perform]
    cases c with
    | quit => exact .ok ⟨by simp [quit], rfl, h⟩
    | help => exact .ok ⟨by simp [help], rfl, h⟩
    | info => exact .ok ⟨by simp [info], ⟨_, _, by rw [info, h.items, h.unique]⟩, h⟩
    | list =>
      obtain ⟨L, hL, hlisting⟩ := h.traverse hfuel
      rw [fnc, list, hL]
      exact .ok ⟨by simp, ⟨L, hlisting, rfl⟩, h⟩
    | print =>
      obtain ⟨text, ht, hdrawing⟩ := h.print hfuel
      rw [fnc, print, ht]
      exact .ok ⟨by simp, ⟨text, hdrawing, rfl⟩, h⟩
    | insert =>
      have hone := hsmall a
      rw [served, Multiset.count_cons_self] at hone
      refine (h.insert hfuel hfit.1 hfit.2 hone).bind ?_
      intro q hq
      obtain ⟨r, s'⟩ := q
      obtain ⟨rfl, h'⟩ := hq
      exact .ok ⟨by simp, rfl, h'⟩
    | exists_ =>
      rw [fnc, exists_, h.exists_eq hfuel hfit.1 hfit.2, ok_bind]
      by_cases ha : a ∈ B
      · rw [if_neg (Multiset.count_ne_zero.mpr ha)]
        exact .ok ⟨by simp, by rw [Answers, if_pos ha], h⟩
      · rw [if_pos (Multiset.count_eq_zero.mpr ha)]
        exact .ok ⟨by simp, by rw [Answers, if_neg ha], h⟩
    | delete =>
      rw [fnc, delete, h.exists_eq hfuel hfit.1 hfit.2, ok_bind]
      by_cases ha : a ∈ B
      · rw [if_neg (Multiset.count_ne_zero.mpr ha)]
        refine (h.delete hfuel ha).bind ?_
        intro q hq
        obtain ⟨r, s'⟩ := q
        obtain ⟨rfl, h'⟩ := hq
        exact .ok ⟨by simp, by rw [Answers, if_pos ha], h'⟩
      · rw [if_pos (Multiset.count_eq_zero.mpr ha)]
        refine .ok ⟨by simp, by rw [Answers, if_neg ha], ?_⟩
        rwa [served, Multiset.erase_of_notMem ha]
    | load =>
      rw [fnc, loadFile]
      cases hf : files a with
      | none =>
        refine .ok ⟨by simp, by rw [Answers, hf]; rfl, ?_⟩
        rw [served, hf]
        exact (add_zero B).symm ▸ h
      | some file =>
        rw [served, hf] at hsmall
        refine (h.loadLoop hfuel _ file.noNul (Nat.lt_succ_self _) hsmall).bind ?_
        intro q hq
        obtain ⟨notes, s'⟩ := q
        obtain ⟨rfl, h'⟩ := hq
        refine .ok ⟨by simp, by rw [Answers, hf]; rfl, ?_⟩
        rw [served, hf]
        exact h'

end Cs238p.Shell
