/-
  Cs238p.Shell.Shell — the loop of `shell` (`project-3/shell.c`) over the word store: keys
  are pressed, lines are entered, commands run.

  The reference is a line editor of one string, a list of lines, and a multiset of words.

  Proved, of all keys: the shell is where the reference is, and every command has printed
  what the multiset answers, as long as no blank comes when the line is full, there is a slot
  for every line, and multiplicities stay below 2^31 (`shell_serves_the_words`).
-/
import Cs238p.Shell.Commands
import Cs238p.Shell.Editor

namespace Cs238p.Shell

open ByteMemory Trimming Scm Avl AvlTree CountTree

/-! ## The loop -/

inductive Press where
  | key (k : Key)
  | newline
  deriving DecidableEq

structure ShellSt where
  session : Session
  avl : AvlSt
  /-- What every command printed. -/
  printed : List (List Printed)
  quits : Bool

/-- `state.n` after a line with a text. -/
def Session.next (s : Session) : Int := if s.i = s.n then (if (H : Int) > s.n + 1 then s.n + 1 else H) else s.n

/-- What is in memory as `read_line` returns a line with a text. -/
def Session.given (base : Nat) (s : Session) : Mem :=
  let m := shellStrtrim s.ed.mem (slot base s.i)
  if s.i = s.n then m.write (slot base s.next) [0] else m

section

variable (base fuel : Nat) (files : List UInt8 → Option TextFile)

/-- A line without a text is not given to `fnc`. -/
def ShellSt.enter (s : ShellSt) : Except Stop ShellSt :=
  let buf := slot base s.session.i
  if safeStrlen (shellStrtrim s.session.ed.mem buf) buf ≠ 0 then do
    let (r, out, avl) ← perform fuel files s.avl (shellFnc (s.session.given base) buf).1
    return ⟨s.session.enter base fun m => (shellFnc m buf).2, avl, s.printed ++ [out], r ≠ 0⟩
  else return { s with session := s.session.enter base id }

def ShellSt.press (s : ShellSt) (p : Press) : Except Stop ShellSt :=
  if s.quits then return s
  else match p with
    | .key k => return { s with session := s.session.step base (.key k) }
    | .newline => s.enter base fuel files

/-- `shell(shell_fnc, avl)`. -/
def shell : ShellSt → List Press → Except Stop ShellSt
  | s, [] => .ok s
  | s, p :: presses => do
    let s ← s.press base fuel files p
    shell s presses

end

/-- Before the first key. -/
def ShellSt.start (base : Nat) (m : Mem) (avl : AvlSt) : ShellSt := ⟨Session.edit base 0 m, avl, [], false⟩

/-! ## The reference -/

/-- The command that a line is. -/
def entryOf (text : List UInt8) : Option Entry := cmds.find? fun e => e.face.isPrefixOf text

def select (text : List UInt8) : Selected :=
  match entryOf text with
  | some e => choose e (strtrim (text.drop e.face.length))
  | none => .bad (badText text)

/-- What is left of a line in the history. -/
def tidy (text : List UInt8) : List UInt8 :=
  match entryOf text with
  | some e => e.face ++ strtrim (text.drop e.face.length)
  | none => text

structure Ref where
  saved : List (List UInt8)
  line : Line
  words : Multiset (List UInt8)
  /-- The commands, each with the words that it was given. -/
  asked : List (Multiset (List UInt8) × Selected)
  quits : Bool

namespace Ref

variable (files : List UInt8 → Option TextFile) (r : Ref)

def start (words : Multiset (List UInt8)) : Ref := ⟨[], Line.start [] [], words, [], false⟩

/-- A line is entered that has a text. -/
def enter (text : List UInt8) : Ref where
  saved := r.saved ++ [tidy text]
  line := Line.start (r.saved ++ [tidy text]) []
  words := served files r.words (select text)
  asked := r.asked ++ [(r.words, select text)]
  quits := select text = .run .quit []

def press (p : Press) : Ref :=
  if r.quits then r
  else match p with
    | .key k => { r with line := r.line.press r.saved k }
    | .newline =>
      if strtrim r.line.text ≠ [] then r.enter files (strtrim r.line.text)
      else { r with line := Line.start r.saved [] }

def run (presses : List Press) : Ref := presses.foldl (press files) r

/-- No blank when the line is full, a slot for the next line, and small multiplicities. -/
def Allows : Press → Prop
  | .key k => Fits r.line k
  | .newline => strtrim r.line.text ≠ [] →
    r.saved.length + 1 < H ∧ ∀ a, (served files r.words (select (strtrim r.line.text))).count a < 2 ^ 31

/-- As long as the shell runs. -/
def AllowsAll : Ref → List Press → Prop
  | _, [] => True
  | r, p :: presses => (r.quits = false → r.Allows files p) ∧ AllowsAll (r.press files p) presses

end Ref

/-- The shell is where the reference is, and has printed what it answers. -/
structure Follows (base : Nat) (files : List UInt8 → Option TextFile) (s : ShellSt) (r : Ref) : Prop where
  good : Good base r.saved s.session.ed r.line
  i : s.session.i = r.saved.length
  n : s.session.n = r.saved.length
  keeps : Keeps s.avl r.words
  answers : List.Forall₂ (fun q out => Answers files q.1 out q.2) r.asked s.printed
  quits : s.quits = r.quits

/-! ## A line -/

variable {base fuel p : Nat} {files : List UInt8 → Option TextFile} {s : ShellSt} {r : Ref} {m : Mem}
  {saved : List (List UInt8)} {text line arg : List UInt8} {e : Entry} {es : List Entry} {c : Command}

theorem entryOf_some (h : entryOf text = some e) : e ∈ cmds ∧ ∃ rest, text = e.face ++ rest := by
  have hp := List.find?_some h
  obtain ⟨rest, hrest⟩ := List.isPrefixOf_iff_prefix.mp hp
  exact ⟨List.mem_of_find?_eq_some h, rest, hrest.symm⟩

theorem entryOf_none (h : entryOf text = none) : ∀ e ∈ cmds, ¬ e.face <+: text := fun e he hp =>
  List.find?_eq_none.mp h e he (List.isPrefixOf_iff_prefix.mpr hp)

theorem length_tidy_le (text : List UInt8) : (tidy text).length ≤ text.length := by
  rw [tidy]
  cases h : entryOf text with
  | none => exact Nat.le_refl _
  | some e =>
    obtain ⟨-, rest, rfl⟩ := entryOf_some h
    have hle : (strtrim rest).length ≤ rest.length := trim_length_le rest
    simp only [List.drop_left, List.length_append]
    omega

/-- Outside the line nothing is written. -/
theorem dispatch_outside (h : StrAt m p text) (hlen : text.length < 2 ^ 64) (hn : ∀ e ∈ es, ∀ c ∈ e.face, c ≠ 0) {x : Nat}
    (hx : x < p ∨ p + text.length < x) : (dispatch m es p).2.byte x = m.byte x := by
  induction es with
  | nil => rfl
  | cons e es ih =>
    rw [dispatch]
    by_cases hf : isFace m e.face p = true
    · obtain ⟨rest, rfl⟩ := (isFace_iff h (hn e List.mem_cons_self)).mp hf
      have hrest := StrAt.drop h (i := e.face.length) (by simp)
      rw [List.drop_left] at hrest
      rw [List.length_append] at hx hlen
      have hout := (shellStrtrim_spec hrest (by omega)).2 x (by omega)
      rw [if_pos hf]
      simp only
      split
      · exact hout
      · exact hout
    · rw [if_neg hf]
      exact ih fun f hf => hn f (List.mem_cons_of_mem _ hf)

/-- `shell_fnc` of a line in memory. -/
theorem shellFnc_spec (h : StrAt m p text) (hlen : text.length < 2 ^ 64) :
    (shellFnc m p).1 = select text ∧ StrAt (shellFnc m p).2 p (tidy text) ∧
      ∀ x, x < p ∨ p + text.length < x → (shellFnc m p).2.byte x = m.byte x := by
  have hout : ∀ x, x < p ∨ p + text.length < x → (shellFnc m p).2.byte x = m.byte x := fun x hx =>
    dispatch_outside h hlen names_noNul hx
  rw [select, tidy]
  cases he : entryOf text with
  | none =>
    have hsame := dispatch_none h hlen names_noNul (entryOf_none he)
    rw [← shellFnc] at hsame
    refine ⟨by rw [hsame], ?_, hout⟩
    rw [hsame]
    exact h
  | some e =>
    obtain ⟨hmem, rest, rfl⟩ := entryOf_some he
    obtain ⟨hsel, hline⟩ := dispatch_some h hlen names_noNul hmem fun f hf hp =>
      names_prefixFree.unique hmem hf (List.prefix_append _ _) hp
    simp only [List.drop_left]
    exact ⟨hsel, hline, hout⟩

/-- Which commands take a word. -/
theorem takes_word : ∀ e ∈ cmds, (e.argc ≠ 0 ↔ e.fnc = .load ∨ e.fnc = .insert ∨ e.fnc = .exists_ ∨ e.fnc = .delete) := by
  decide

theorem choose_run (h : choose e text = .run c arg) : c = e.fnc ∧ arg = text ∧ (e.argc ≠ 0 → text ≠ []) ∧ (e.argc = 0 → text = []) := by
  rw [choose] at h
  split at h
  · cases h
  · rename_i hno
    push Not at hno
    cases h
    exact ⟨rfl, rfl, hno.1, fun h0 => by simpa using hno.2 h0⟩

theorem select_run (h : select text = .run c arg) : (∀ b ∈ arg, b ∈ text) ∧
    (c = .load ∨ c = .insert ∨ c = .exists_ ∨ c = .delete → arg ≠ []) ∧ (c = .quit → arg = []) := by
  rw [select] at h
  cases he : entryOf text with
  | none =>
    rw [he] at h
    cases h
  | some e =>
    obtain ⟨hmem, rest, rfl⟩ := entryOf_some he
    rw [he] at h
    simp only [List.drop_left] at h
    obtain ⟨rfl, rfl, hne, hnil⟩ := choose_run h
    have htakes := takes_word e hmem
    refine ⟨fun b hb => List.mem_append_right _ (mem_of_mem_trim hb), fun hc => hne (htakes.mpr hc), fun hq => hnil ?_⟩
    by_contra h0
    rcases htakes.mp h0 with hc | hc | hc | hc
    · rw [hq] at hc; cases hc
    · rw [hq] at hc; cases hc
    · rw [hq] at hc; cases hc
    · rw [hq] at hc; cases hc

theorem select_fit (hn : ∀ b ∈ text, b ≠ 0) : (select text).Fit := by
  cases h : select text with
  | bad a => trivial
  | run c a =>
    obtain ⟨hmem, hword, -⟩ := select_run h
    have hnul : ∀ b ∈ a, b ≠ 0 := fun b hb => hn b (hmem b hb)
    cases c with
    | quit => trivial
    | help => trivial
    | info => trivial
    | list => trivial
    | print => trivial
    | load => exact ⟨hword (by decide), hnul⟩
    | insert => exact ⟨hword (by decide), hnul⟩
    | exists_ => exact ⟨hword (by decide), hnul⟩
    | delete => exact ⟨hword (by decide), hnul⟩

/-! ## The line in its slot -/

theorem Saved.push (h : Saved base m saved) (ht : StrAt m (base + N * saved.length) text) (hs : text.length < N) :
    Saved base m (saved ++ [text]) := by
  constructor
  · intro j hj
    by_cases hlt : j < saved.length
    · rw [List.getElem_append_left hlt]
      exact h.strs j hlt
    · obtain rfl : j = saved.length := by
        rw [List.length_append, List.length_singleton] at hj
        omega
      rw [List.getElem_concat_length rfl]
      exact ht
  · intro s hs'
    rcases List.mem_append.mp hs' with hs' | hs'
    · exact h.short s hs'
    · rw [List.mem_singleton.mp hs']
      exact hs

/-- The line is trimmed in its slot. -/
theorem Follows.trimmed (h : Follows base files s r) : slot base s.session.i = base + N * r.saved.length ∧
    (strtrim r.line.text).length < N ∧
    StrAt (shellStrtrim s.session.ed.mem (base + N * r.saved.length)) (base + N * r.saved.length) (strtrim r.line.text) ∧
    Saved base (shellStrtrim s.session.ed.mem (base + N * r.saved.length)) r.saved := by
  have hfull := h.good.full
  have hN : N = 160 := rfl
  have hle : (strtrim r.line.text).length ≤ r.line.text.length := trim_length_le _
  obtain ⟨htext, hout⟩ := shellStrtrim_spec h.good.text (by omega)
  refine ⟨?_, by omega, htext, h.good.history.congr fun x hx => hout x (Or.inl hx)⟩
  rw [h.i]
  exact slot_natCast base r.saved.length

theorem Follows.hasText (h : Follows base files s r) :
    safeStrlen (shellStrtrim s.session.ed.mem (slot base s.session.i)) (slot base s.session.i) ≠ 0 ↔
      strtrim r.line.text ≠ [] := by
  obtain ⟨hslot, hlt, htext, -⟩ := h.trimmed
  rw [hslot, safeStrlen_eq htext hlt, ne_eq, ne_eq, List.length_eq_zero_iff]

/-- What the callback is given: the line, and an empty slot after it. -/
theorem Follows.given (h : Follows base files s r) (hroom : r.saved.length + 1 < H) :
    StrAt (s.session.given base) (base + N * r.saved.length) (strtrim r.line.text) ∧
      Saved base (s.session.given base) r.saved ∧ (s.session.given base).byte (base + N * (r.saved.length + 1)) = 0 ∧
      s.session.next = ((r.saved.length + 1 : Nat) : Int) := by
  obtain ⟨hslot, hlt, htext, hsaved⟩ := h.trimmed
  have hH : H = 96 := rfl
  have hnext : s.session.next = ((r.saved.length + 1 : Nat) : Int) := by
    rw [Session.next, if_pos (h.i.trans h.n.symm), h.n, if_pos (by omega)]
    rfl
  have hgiven : s.session.given base =
      (shellStrtrim s.session.ed.mem (base + N * r.saved.length)).write (base + N * (r.saved.length + 1)) [0] := by
    rw [Session.given, hslot, if_pos (h.i.trans h.n.symm), hnext, slot_natCast]
  have hmul : N * (r.saved.length + 1) = N * r.saved.length + N := Nat.mul_succ _ _
  rw [hgiven]
  refine ⟨htext.congr fun x _ hx => ?_, hsaved.congr fun x hx => ?_, ?_, hnext⟩
  · exact Mem.byte_write_out (by omega)
  · exact Mem.byte_write_out (by omega)
  · rw [Mem.byte_write_in (Nat.le_refl _) (by rw [List.length_singleton]; omega)]
    simp

/-- The next line is empty, and this one is in the history. -/
theorem Follows.entered (h : Follows base files s r) (hroom : r.saved.length + 1 < H) (htext : strtrim r.line.text ≠ []) :
    let line := tidy (strtrim r.line.text)
    let session := s.session.enter base fun m => (shellFnc m (slot base s.session.i)).2
    Good base (r.saved ++ [line]) session.ed (Line.start (r.saved ++ [line]) []) ∧
      session.i = ((r.saved ++ [line]).length : Int) ∧ session.n = ((r.saved ++ [line]).length : Int) := by
  intro line session
  obtain ⟨hslot, hlt, -, -⟩ := h.trimmed
  obtain ⟨hline, hsaved, hstop, hnext⟩ := h.given hroom
  have hN : N = 160 := rfl
  obtain ⟨-, htidy, hout⟩ := shellFnc_spec hline (by omega)
  have hshort : line.length ≤ (strtrim r.line.text).length := length_tidy_le _
  have hlen : (r.saved ++ [line]).length = r.saved.length + 1 := by rw [List.length_append, List.length_singleton]
  have hmul : N * (r.saved.length + 1) = N * r.saved.length + N := Nat.mul_succ _ _
  have hsession : session = Session.edit base ((r.saved ++ [line]).length : Nat)
      (shellFnc (s.session.given base) (base + N * r.saved.length)).2 := by
    simp only [session]
    rw [hlen, ← hnext, Session.enter, if_pos (h.hasText.mpr htext), if_pos (h.i.trans h.n.symm), ← hslot, Session.given,
      if_pos (h.i.trans h.n.symm), Session.next, if_pos (h.i.trans h.n.symm)]
  have hall : Saved base (shellFnc (s.session.given base) (base + N * r.saved.length)).2 (r.saved ++ [line]) :=
    (hsaved.congr fun x hx => hout x (Or.inl hx)).push htidy (by omega)
  have hempty : StrAt (shellFnc (s.session.given base) (base + N * r.saved.length)).2
      (base + N * (r.saved ++ [line]).length) [] := by
    rw [hlen]
    refine strAt_of_bytes (fun _ hi => absurd hi (Nat.not_lt_zero _)) ?_ (by simp)
    rw [List.length_nil, Nat.add_zero, hout _ (Or.inr (by omega)), hstop]
  rw [hsession]
  exact ⟨good_start hall hempty (by decide), rfl, rfl⟩

/-! ## Every key -/

theorem Follows.key (h : Follows base files s r) {k : Key} (hfit : Fits r.line k) :
    Follows base files { s with session := s.session.step base (.key k) } { r with line := r.line.press r.saved k } := by
  refine ⟨?_, h.i, h.n, h.keeps, h.answers, h.quits⟩
  change Good base r.saved (s.session.ed.press base (slot base s.session.i) s.session.n k) (r.line.press r.saved k)
  rw [h.i, h.n, slot_natCast]
  exact h.good.press hfit

/-- A line without a text is edited again, empty. -/
theorem Follows.blank (h : Follows base files s r) (hblank : strtrim r.line.text = []) :
    Follows base files { s with session := s.session.enter base id } { r with line := Line.start r.saved [] } := by
  obtain ⟨hslot, -, htext, hsaved⟩ := h.trimmed
  rw [hblank] at htext
  have hsession : s.session.enter base id =
      Session.edit base (r.saved.length : Nat) (shellStrtrim s.session.ed.mem (base + N * r.saved.length)) := by
    rw [Session.enter, if_neg (fun hne => h.hasText.mp hne hblank), h.n, hslot]
  refine ⟨?_, ?_, ?_, h.keeps, h.answers, h.quits⟩
  · simp only [hsession]
    exact good_start hsaved htext (by decide)
  · simp only [hsession]
    rfl
  · simp only [hsession]
    rfl

theorem Follows.enter (h : Follows base files s r) (hfuel : 120 ≤ fuel) (hallows : r.Allows files .newline)
    (htext : strtrim r.line.text ≠ []) :
    Outcome Full (s.enter base fuel files) fun s' => Follows base files s' (r.enter files (strtrim r.line.text)) := by
  obtain ⟨hroom, hsmall⟩ := hallows htext
  obtain ⟨hslot, hlt, -, -⟩ := h.trimmed
  obtain ⟨hline, -⟩ := h.given hroom
  have hN : N = 160 := rfl
  obtain ⟨hsel, -⟩ := shellFnc_spec hline (by omega)
  obtain ⟨hgood, hi, hn⟩ := h.entered hroom htext
  rw [ShellSt.enter]
  simp only
  rw [if_pos (h.hasText.mpr htext)]
  rw [← hslot] at hsel
  rw [hsel]
  refine (perform_spec h.keeps hfuel _ (select_fit hline.noNul) hsmall).bind ?_
  intro q hq
  obtain ⟨v, out, avl⟩ := q
  refine .ok ⟨hgood, hi, hn, hq.keeps, List.rel_append h.answers (.cons hq.prints .nil), ?_⟩
  -- `quit` takes no argument
  have hquit : (∃ a, select (strtrim r.line.text) = .run .quit a) ↔ select (strtrim r.line.text) = .run .quit [] := by
    constructor
    · rintro ⟨a, ha⟩
      rw [ha, (select_run ha).2.2 rfl]
    · exact fun ha => ⟨[], ha⟩
  exact decide_eq_decide.mpr (hq.quits.trans hquit)

theorem Follows.press (h : Follows base files s r) (hfuel : 120 ≤ fuel) (p : Press)
    (hallows : r.quits = false → r.Allows files p) :
    Outcome Full (s.press base fuel files p) fun s' => Follows base files s' (r.press files p) := by
  unfold ShellSt.press Ref.press
  by_cases hover : r.quits = true
  · rw [if_pos (h.quits.trans hover), if_pos hover]
    exact .ok h
  · have hall := hallows (Bool.eq_false_iff.mpr hover)
    rw [if_neg (h.quits ▸ hover), if_neg hover]
    cases p with
    | key k => exact .ok (h.key hall)
    | newline =>
      simp only
      by_cases htext : strtrim r.line.text = []
      · rw [if_neg (not_not_intro htext), ShellSt.enter]
        simp only
        rw [if_neg fun hne => h.hasText.mp hne htext]
        exact .ok (h.blank htext)
      · rw [if_pos htext]
        exact h.enter hfuel hall htext

theorem Follows.run (hfuel : 120 ≤ fuel) : ∀ {s : ShellSt} {r : Ref} (presses : List Press), Follows base files s r →
    r.AllowsAll files presses →
    Outcome Full (shell base fuel files s presses) fun s' => Follows base files s' (r.run files presses)
  | _, _, [], h, _ => .ok h
  | _, _, p :: presses, h, hall => by
    refine (h.press hfuel p hall.1).bind ?_
    intro s' h'
    exact Follows.run hfuel presses h' hall.2

/-- The static `state` of the shell is zero at first. -/
theorem follows_start {avl : AvlSt} {B : Multiset (List UInt8)} (hm : m.byte base = 0) (h : Keeps avl B) :
    Follows base files (.start base m avl) (.start B) := by
  have hempty : StrAt m (base + N * ([] : List (List UInt8)).length) [] :=
    strAt_of_bytes (fun _ hi => absurd hi (Nat.not_lt_zero _)) hm (by simp)
  exact ⟨good_start ⟨fun _ hj => absurd hj (Nat.not_lt_zero _), fun _ hs => absurd hs List.not_mem_nil⟩ hempty (by decide),
    rfl, rfl, h, .nil, rfl⟩

/-- On a store that insertions and deletions made, whatever is typed: as long as no blank comes
    when the line is full, a slot is left for every line and multiplicities stay below 2^31,
    the line, the history and the words are the reference's, and every command prints what the
    words answer, or the run stops for want of room. -/
theorem shell_serves_the_words (base fuel size : Nat) (hs : vmStart + size < 2 ^ 64) (file m : Mem) (ops : List Op)
    (avl : AvlSt) (files : List UInt8 → Option TextFile) (presses : List Press) (hfuel : 120 ≤ fuel)
    (hm : m.byte base = 0) (hlegal : Legal 0 ops) (hrun : session fuel size hs file ops = .ok avl)
    (hall : (Ref.start ((contents 0 ops).map Word.bytes)).AllowsAll files presses) :
    Outcome Full (shell base fuel files (.start base m avl) presses) fun s =>
      Follows base files s ((Ref.start ((contents 0 ops).map Word.bytes)).run files presses) := by
  have hout := session_counted fuel size hs file ops hfuel hlegal
  rw [hrun] at hout
  cases hout with
  | ok h =>
    obtain ⟨t, h⟩ := h
    exact Follows.run hfuel presses (follows_start hm ⟨t, _, h, rfl⟩) hall

/-! ## Two lines -/

/-- The keys of a text. -/
def typing (text : String) : List Press :=
  (face text).map fun k => if h : k ≠ 27 ∧ k ≠ 10 then .key (.plain k h) else .newline

/-- What `AllowsAll` asks for, with the number of all words in place of the multiplicities. -/
def Ref.AllowsFew (files : List UInt8 → Option TextFile) : Ref → List Press → Bool
  | _, [] => true
  | r, .key k :: presses => decide (Fits r.line k) && AllowsFew files (r.press files (.key k)) presses
  | r, .newline :: presses =>
    decide (r.saved.length + 1 < H ∧ (served files r.words (select (strtrim r.line.text))).card < 2 ^ 31) &&
      AllowsFew files (r.press files .newline) presses

theorem allowsAll_of_few : ∀ {r : Ref} {presses : List Press}, r.AllowsFew files presses = true → r.AllowsAll files presses
  | _, [], _ => trivial
  | r, .key k :: presses, h => by
    obtain ⟨h1, h2⟩ := Bool.and_eq_true_iff.mp h
    exact ⟨fun _ => show Fits r.line k from of_decide_eq_true h1, allowsAll_of_few h2⟩
  | r, .newline :: presses, h => by
    obtain ⟨h1, h2⟩ := Bool.and_eq_true_iff.mp h
    obtain ⟨hroom, hcard⟩ := of_decide_eq_true h1
    exact ⟨fun _ _ => ⟨hroom, fun a => lt_of_le_of_lt (Multiset.count_le_card a _) hcard⟩, allowsAll_of_few h2⟩

def insertAndAsk : List Press := typing "insert  a\nexists a\n"

theorem allows_insertAndAsk : (Ref.start 0).AllowsAll (fun _ => none) insertAndAsk := allowsAll_of_few (by decide +kernel)

theorem shell_serves_the_words_two_lines : ∃ avl, session 120 4096 (by decide) blank [] = .ok avl ∧
    Outcome Full (shell 0 120 (fun _ => none) (.start 0 blank avl) insertAndAsk) fun s =>
      Follows 0 (fun _ => none) s ((Ref.start 0).run (fun _ => none) insertAndAsk) := by
  obtain ⟨avl, havl, -⟩ := exists_ok_of_map
    (show (session 120 4096 (by decide) blank []).map avlItems = .ok 0 by decide +kernel)
  exact ⟨avl, havl, shell_serves_the_words 0 120 4096 (by decide) blank blank [] avl (fun _ => none) insertAndAsk
    (by decide) rfl trivial havl allows_insertAndAsk⟩

end Cs238p.Shell
