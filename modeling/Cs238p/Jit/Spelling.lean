/-
  Cs238p.Jit.Spelling — from an expression to a text and back.

  `Spells n e ps`: the pieces `ps` spell the tree `e` where an operand of level `n` or
  above is expected; an operator of a lower level needs parentheses there, and the right
  operand of an operator stands one level above it, since chains associate to the left.
  Parentheses that are not needed, and unary pluses, may stand anywhere. `Rendered` puts
  any whitespace around the pieces.

  The C library's `strtod` is asked for one thing (`ReadsLiterals`): at a decimal literal
  that is followed by an operator, a parenthesis, whitespace or the end, it takes exactly
  that literal.

  Proved: `parser_open` of a text that spells a tree returns the tree (`parse_spelled`),
  and every tree has a text (`spells_print`).
-/
import Mathlib.Algebra.Order.Field.Rat
import Mathlib.Data.List.Chain
import Mathlib.Tactic.NormNum
import Cs238p.Jit.ParserProofs

namespace Cs238p.Jit

/-! ## Trees -/

/-- A non-negative decimal literal: digits, and maybe a point and more digits. -/
structure Literal where
  whole : List Char
  fraction : Option (List Char)
  whole_ne : whole ≠ []
  whole_digits : ∀ c ∈ whole, c.isDigit = true
  fraction_digits : ∀ f, fraction = some f → f ≠ [] ∧ ∀ c ∈ f, c.isDigit = true

def Literal.text (l : Literal) : List Char := l.whole ++ l.fraction.elim [] ('.' :: ·)

inductive BinOp where
  | mul
  | div
  | add
  | sub
  deriving DecidableEq, Repr

inductive Expr where
  | lit (l : Literal)
  | neg (e : Expr)
  | bin (op : BinOp) (l r : Expr)

def BinOp.dagOp : BinOp → DagOp
  | .mul => .mul
  | .div => .div
  | .add => .add
  | .sub => .sub

/-- How tightly an operator binds. -/
def BinOp.level : BinOp → Nat
  | .mul | .div => 1
  | .add | .sub => 0

/-- The literals of a tree, from left to right. -/
def Expr.literals : Expr → List Literal
  | .lit l => [l]
  | .neg e => e.literals
  | .bin _ l r => l.literals ++ r.literals

variable {V : Type} [Zero V]

/-- The DAG equal to a tree, with these values for its literals. -/
def Expr.dag (value : Literal → V) : Expr → ParserDag V
  | .lit l => .node .val (value l) .null .null
  | .neg e => mkd .neg .null (e.dag value)
  | .bin op l r => mkd op.dagOp (l.dag value) (r.dag value)

/-- The values of the VAL nodes, from left to right. -/
def ParserDag.vals : ParserDag V → List V
  | .null => []
  | .node .val v _ _ => [v]
  | .node _ _ l r => l.vals ++ r.vals

/-! ## Texts -/

inductive Mark where
  | add
  | sub
  | mul
  | div
  | open_
  | close
  deriving DecidableEq, Repr

def Mark.char : Mark → Char
  | .add => '+'
  | .sub => '-'
  | .mul => '*'
  | .div => '/'
  | .open_ => '('
  | .close => ')'

def Mark.op : Mark → LexerOp
  | .add => .add
  | .sub => .sub
  | .mul => .mul
  | .div => .div
  | .open_ => .open_
  | .close => .close

def BinOp.mark : BinOp → Mark
  | .mul => .mul
  | .div => .div
  | .add => .add
  | .sub => .sub

/-- What the whitespace of a text separates. -/
inductive Piece where
  | lit (l : Literal)
  | mark (m : Mark)

def Piece.text : Piece → List Char
  | .lit l => l.text
  | .mark m => [m.char]

def Piece.literal : Piece → Option Literal
  | .lit l => some l
  | .mark _ => none

inductive Spells : Nat → Expr → List Piece → Prop
  | lit (n : Nat) (l : Literal) : Spells n (.lit l) [.lit l]
  | neg {n : Nat} {e : Expr} {ps : List Piece} : n ≤ 2 → Spells 2 e ps → Spells n (.neg e) (.mark .sub :: ps)
  | bin {n : Nat} {op : BinOp} {l r : Expr} {ps qs : List Piece} : n ≤ op.level → Spells op.level l ps →
      Spells (op.level + 1) r qs → Spells n (.bin op l r) (ps ++ .mark op.mark :: qs)
  | paren (n : Nat) {e : Expr} {ps : List Piece} : Spells 0 e ps →
      Spells n e (.mark .open_ :: (ps ++ [.mark .close]))
  | plus {n : Nat} {e : Expr} {ps : List Piece} : n ≤ 2 → Spells 2 e ps → Spells n e (.mark .add :: ps)

/-- A text of these pieces, with any whitespace before, between and after them. -/
inductive Rendered : List Piece → List Char → Prop
  | nil {ws : List Char} : (∀ c ∈ ws, isspace c = true) → Rendered [] ws
  | cons {ws : List Char} {p : Piece} {ps : List Piece} {s : List Char} : (∀ c ∈ ws, isspace c = true) →
      Rendered ps s → Rendered (p :: ps) (ws ++ (p.text ++ s))

/-- A literal can end before this text. -/
def Ends (s : List Char) : Prop := ∀ c, s.head? = some c → (operator c).isSome = true ∨ isspace c = true

/-- `strtod` takes a literal that can end, and answers its value. -/
def ReadsLiterals (strtod : List Char → V × Nat) (value : Literal → V) : Prop :=
  ∀ (l : Literal) (s : List Char), Ends s → strtod (l.text ++ s) = (value l, l.text.length)

/-! ## Lexing -/

variable {strtod : List Char → V × Nat} {value : Literal → V} {e : Expr} {p : Piece} {ps qs : List Piece}
  {s : List Char} {n : Nat}

/-- The token of a piece. -/
def Piece.token (value : Literal → V) : Piece → LexerToken V
  | .lit l => ⟨.val, value l⟩
  | .mark m => ⟨m.op, 0⟩

theorem operator_char (m : Mark) : operator m.char = some m.op := by
  cases m <;> rfl

theorem isspace_char (m : Mark) : isspace m.char = false := by
  cases m <;> rfl

theorem isDigit_char (m : Mark) : m.char.isDigit = false := by
  cases m <;> rfl

/-- Only marks are operators. -/
theorem exists_mark {c : Char} {op : LexerOp} (h : operator c = some op) : ∃ m : Mark, m.char = c := by
  unfold operator at h
  split at h
  · exact ⟨.add, rfl⟩
  · exact ⟨.sub, rfl⟩
  · exact ⟨.mul, rfl⟩
  · exact ⟨.div, rfl⟩
  · exact ⟨.open_, rfl⟩
  · exact ⟨.close, rfl⟩
  · cases h

theorem operator_of_isspace {c : Char} (h : isspace c = true) : operator c = none := by
  cases ho : operator c with
  | none => rfl
  | some op =>
    obtain ⟨m, rfl⟩ := exists_mark ho
    rw [isspace_char] at h
    cases h

theorem operator_of_isDigit {c : Char} (h : c.isDigit = true) : operator c = none := by
  cases ho : operator c with
  | none => rfl
  | some op =>
    obtain ⟨m, rfl⟩ := exists_mark ho
    rw [isDigit_char] at h
    cases h

theorem isspace_of_isDigit {c : Char} (h : c.isDigit = true) : isspace c = false := by
  have hge : 48 ≤ c.toNat := by
    simp only [Char.isDigit, Bool.and_eq_true, decide_eq_true_eq] at h
    exact UInt32.le_iff_toNat_le.mp h.1
  have hne : c ≠ ' ' := by
    intro hc
    rw [hc] at hge
    revert hge
    decide
  have hnot : ¬ (9 ≤ c.toNat ∧ c.toNat ≤ 13) := by omega
  simpa [isspace, hne] using hnot

/-- A literal is digits first. -/
theorem Literal.exists_cons (l : Literal) : ∃ c cs, l.text = c :: cs ∧ c.isDigit = true := by
  have hne := l.whole_ne
  have hdigits := l.whole_digits
  unfold Literal.text
  cases hw : l.whole with
  | nil => exact absurd hw hne
  | cons c cs => exact ⟨c, _, rfl, hdigits c (by rw [hw]; exact List.mem_cons_self)⟩

/-- Whitespace is skipped. -/
theorem tokenize_spaces (strtod : List Char → V × Nat) (lexer : Lexer V) (s : List Char) : ∀ ws : List Char,
    (∀ c ∈ ws, isspace c = true) → tokenize strtod lexer (ws ++ s) = tokenize strtod lexer s := by
  intro ws
  induction ws with
  | nil => exact fun _ => rfl
  | cons c ws ih =>
    intro h
    have hc := h c List.mem_cons_self
    rw [List.cons_append, tokenize, operator_of_isspace hc]
    simp only [hc, if_true]
    exact ih fun d hd => h d (List.mem_cons_of_mem _ hd)

/-- A piece becomes its token, if the text after a literal lets it end. -/
theorem tokenize_piece (hread : ReadsLiterals strtod value) {lexer : Lexer V} (hok : lexer.Ok) (p : Piece)
    {s : List Char}
    (hs : p.literal.isSome = true → Ends s) : ∃ lexer', tokenize strtod lexer (p.text ++ s) = tokenize strtod lexer' s ∧
      lexer'.Ok ∧ lexer'.tokens = lexer.tokens ++ [p.token value] := by
  cases p with
  | mark m =>
    have hop : m.op ≠ .sentinel := by cases m <;> simp [Mark.op]
    obtain ⟨lexer', hm, hok', htok⟩ := mktoken_in_room hok m.op hop 0
    refine ⟨lexer', ?_, hok', htok⟩
    rw [Piece.text, List.cons_append, List.nil_append, tokenize, operator_char]
    simp only [hm]
  | lit l =>
    obtain ⟨c, cs, htext, hc⟩ := l.exists_cons
    have hstr := hread l s (hs rfl)
    obtain ⟨lexer', hm, hok', htok⟩ := mktoken_in_room hok .val (by simp) (value l)
    refine ⟨lexer', ?_, hok', htok⟩
    rw [htext, List.length_cons, List.cons_append] at hstr
    rw [Piece.text, htext, List.cons_append, tokenize, operator_of_isDigit hc]
    simp only [isspace_of_isDigit hc, Bool.false_eq_true, if_false, hstr, hm, Nat.succ_ne_zero, Nat.add_sub_cancel,
      List.drop_left]

/-- No literal follows another. -/
def Apart (ps : List Piece) : Prop := ps.IsChain fun p q => ¬ (p.literal.isSome = true ∧ q.literal.isSome = true)

/-- A text that is empty, or starts with whitespace or a mark, lets a literal end. -/
theorem Rendered.ends (h : Rendered ps s) (hps : ∀ p ∈ ps.head?, ¬ p.literal.isSome = true) : Ends s := by
  intro c hc
  cases h with
  | nil hws => exact Or.inr (hws c (List.mem_of_mem_head? hc))
  | @cons ws p ps s hws hr =>
    cases ws with
    | cons d ws =>
      cases hc
      exact Or.inr (hws c List.mem_cons_self)
    | nil =>
      cases p with
      | lit l => exact absurd rfl (hps _ rfl)
      | mark m =>
        cases hc
        exact Or.inl (by rw [operator_char]; rfl)

theorem tokenize_rendered (hread : ReadsLiterals strtod value) (h : Rendered ps s) : ∀ {lexer : Lexer V}, lexer.Ok →
    Apart ps →
    ∃ lexer', tokenize strtod lexer s = .ok (some lexer') ∧
      lexer'.tokens = lexer.tokens ++ ps.map (Piece.token value) := by
  induction h with
  | @nil ws hws =>
    intro lexer hok _
    refine ⟨lexer, ?_, (List.append_nil _).symm⟩
    have hsp := tokenize_spaces strtod lexer [] ws hws
    rw [List.append_nil] at hsp
    rw [hsp, tokenize]
  | @cons ws p ps s hws hr ih =>
    intro lexer hok hapart
    have hends : p.literal.isSome = true → Ends s := by
      intro hp
      apply hr.ends
      intro q hq hlit
      exact (List.isChain_cons.mp hapart).1 q hq ⟨hp, hlit⟩
    obtain ⟨lexer₁, h₁, hok₁, ht₁⟩ := tokenize_piece hread hok p hends
    obtain ⟨lexer₂, h₂, ht₂⟩ := ih hok₁ hapart.tail
    refine ⟨lexer₂, ?_, ?_⟩
    · rw [tokenize_spaces strtod lexer _ ws hws, h₁, h₂]
    · rw [ht₂, ht₁, List.map_cons, List.append_assoc, List.singleton_append]

/-! ## Spellings -/

theorem apart_mark (m : Mark) (hp : Apart ps) (hq : Apart qs) : Apart (ps ++ .mark m :: qs) := by
  have hmark : Apart (.mark m :: qs) := List.isChain_cons.mpr ⟨fun q _ h => absurd h.1 (by simp [Piece.literal]), hq⟩
  refine List.isChain_append.mpr ⟨hp, hmark, ?_⟩
  intro p _ q hq h
  cases hq
  exact absurd h.2 (by simp [Piece.literal])

theorem Spells.apart (h : Spells n e ps) : Apart ps := by
  induction h with
  | lit n l => exact List.isChain_singleton _
  | neg _ _ ih => exact apart_mark .sub List.isChain_nil ih
  | bin _ _ _ ihl ihr => exact apart_mark _ ihl ihr
  | paren n _ ih => exact apart_mark .open_ List.isChain_nil (apart_mark .close ih List.isChain_nil)
  | plus _ _ ih => exact apart_mark .add List.isChain_nil ih

@[simp] theorem filterMap_mark (m : Mark) (ps : List Piece) :
    (.mark m :: ps).filterMap Piece.literal = ps.filterMap Piece.literal :=
  List.filterMap_cons_none rfl

/-- The literals of a text are those of its tree, in order. -/
theorem Spells.literals (h : Spells n e ps) : ps.filterMap Piece.literal = e.literals := by
  induction h with
  | lit n l => rfl
  | neg _ _ ih => rw [filterMap_mark, ih, Expr.literals]
  | bin _ _ _ ihl ihr => rw [List.filterMap_append, filterMap_mark, ihl, ihr, Expr.literals]
  | paren n _ ih => rw [filterMap_mark, List.filterMap_append, filterMap_mark, ih, List.filterMap_nil, List.append_nil]
  | plus _ _ ih => rw [filterMap_mark, ih]

theorem vals_dag (value : Literal → V) (e : Expr) : (e.dag value).vals = e.literals.map value := by
  induction e with
  | lit l => rfl
  | neg e ih => simpa [Expr.dag, mkd, ParserDag.vals, Expr.literals] using ih
  | bin op l r ihl ihr =>
    cases op <;> simp [Expr.dag, mkd, BinOp.dagOp, ParserDag.vals, Expr.literals, ihl, ihr]

/-- The nonterminal that takes operands of a level. -/
def nonterminal : Nat → Nonterminal
  | 0 => .expr
  | 1 => .term
  | _ => .unary

theorem derives_unary {ts : List (LexerToken V)} {d : ParserDag V} (n : Nat) (h : Derives .unary ts d) :
    Derives (nonterminal n) ts d := by
  match n with
  | 0 => exact .term (.unary h)
  | 1 => exact .unary h
  | n + 2 => exact h

theorem derives_term {ts : List (LexerToken V)} {d : ParserDag V} (hn : n ≤ 1) (h : Derives .term ts d) :
    Derives (nonterminal n) ts d := by
  match n, hn with
  | 0, _ => exact .term h
  | 1, _ => exact h

/-- A spelling is a derivation of its tree. -/
theorem Spells.derives (value : Literal → V) (h : Spells n e ps) :
    Derives (nonterminal n) (ps.map (Piece.token value)) (e.dag value) := by
  induction h with
  | lit n l => exact derives_unary n (.val rfl)
  | neg hn _ ih => exact derives_unary _ (.minus rfl ih)
  | @bin n op l r ps qs hn _ _ ihl ihr =>
    rw [List.map_append, List.map_cons]
    cases op with
    | mul => exact derives_term hn (.mul rfl ihl ihr)
    | div => exact derives_term hn (.div rfl ihl ihr)
    | add =>
      rw [Nat.le_zero.mp hn]
      exact .add rfl ihl ihr
    | sub =>
      rw [Nat.le_zero.mp hn]
      exact .sub rfl ihl ihr
  | paren n _ ih =>
    rw [List.map_cons, List.map_append]
    exact derives_unary n (.paren rfl rfl ih)
  | plus hn _ ih => exact derives_unary _ (.plus rfl ih)

theorem parserOpen_spelled (hread : ReadsLiterals strtod value) (hspell : Spells 0 e ps) (hlay : Rendered ps s) :
    parserOpen strtod s = .ok (e.dag value, []) := by
  have hd := hspell.derives value
  obtain ⟨lexer, hlex, htok⟩ := tokenize_rendered hread hlay ok_empty hspell.apart
  have hne : s.length ≠ 0 := by
    intro h0
    rw [List.length_eq_zero_iff.mp h0, tokenize] at hlex
    cases hlex
    exact hd.ne_nil htok.symm
  have hopen : lexerOpen strtod s = .ok (some lexer) := by rw [lexerOpen, if_neg hne, hlex]
  rw [List.nil_append] at htok
  rw [← htok] at hd
  exact parserOpen_complete strtod hopen hd

/-- The pieces of a tree with no parentheses but the needed ones. -/
def Expr.print (n : Nat) : Expr → List Piece
  | .lit l => [.lit l]
  | .neg e => if n ≤ 2 then .mark .sub :: e.print 2 else .mark .open_ :: (.mark .sub :: e.print 2 ++ [.mark .close])
  | .bin op l r =>
    let ps := l.print op.level ++ .mark op.mark :: r.print (op.level + 1)
    if n ≤ op.level then ps else .mark .open_ :: (ps ++ [.mark .close])

theorem spells_print (e : Expr) (n : Nat) : Spells n e (e.print n) := by
  induction e generalizing n with
  | lit l => exact .lit n l
  | neg e ih =>
    rw [Expr.print]
    split
    · exact .neg (by assumption) (ih 2)
    · exact .paren n (.neg (Nat.zero_le 2) (ih 2))
  | bin op l r ihl ihr =>
    rw [Expr.print]
    split
    · exact .bin (by assumption) (ihl _) (ihr _)
    · exact .paren n (.bin (Nat.zero_le _) (ihl _) (ihr _))

theorem rendered_flatMap (ps : List Piece) : Rendered ps (ps.flatMap Piece.text) := by
  induction ps with
  | nil => exact .nil fun c hc => absurd hc List.not_mem_nil
  | cons p ps ih => exact @Rendered.cons [] _ _ _ (fun c hc => absurd hc List.not_mem_nil) ih

/-- The text of a tree, without any whitespace, is parsed to the tree. -/
theorem parserOpen_print (hread : ReadsLiterals strtod value) (e : Expr) :
    parserOpen strtod ((e.print 0).flatMap Piece.text) = .ok (e.dag value, []) :=
  parserOpen_spelled hread (spells_print e 0) (rendered_flatMap _)

/-- Every text that spells a tree, in any layout, is parsed to the tree, with the values of
    its literals in order, and nothing is traced. -/
theorem parse_spelled (strtod : List Char → V × Nat) (value : Literal → V) (hread : ReadsLiterals strtod value)
    (e : Expr) (ps : List Piece) (s : List Char) (hspell : Spells 0 e ps) (hlay : Rendered ps s) :
    parserOpen strtod s = .ok (e.dag value, []) ∧ (e.dag value).vals = (ps.filterMap Piece.literal).map value := by
  refine ⟨parserOpen_spelled hread hspell hlay, ?_⟩
  rw [vals_dag, hspell.literals]

/-- The number of a list of digits. -/
def digits (cs : List Char) : ℚ := cs.foldl (fun n c => 10 * n + (c.toNat - 48 : Nat)) 0

/-- The number of a literal. -/
def Literal.number (l : Literal) : ℚ := digits l.whole + l.fraction.elim 0 fun f => digits f / 10 ^ f.length

/-- `strtod` on decimal literals. -/
def strtodDecimal (s : List Char) : ℚ × Nat :=
  let whole := s.takeWhile Char.isDigit
  match s.dropWhile Char.isDigit with
  | '.' :: t =>
    let fraction := t.takeWhile Char.isDigit
    (digits whole + digits fraction / 10 ^ fraction.length, whole.length + 1 + fraction.length)
  | _ => (digits whole, whole.length)

theorem Ends.not_literal (h : Ends s) : s.takeWhile Char.isDigit = [] ∧ s.dropWhile Char.isDigit = s ∧
    s.head? ≠ some '.' := by
  cases s with
  | nil => exact ⟨rfl, rfl, by simp⟩
  | cons c cs =>
    have hc := h c rfl
    have hdigit : ¬ c.isDigit = true := by
      intro hd
      rw [operator_of_isDigit hd, isspace_of_isDigit hd] at hc
      rcases hc with hc | hc
      · cases hc
      · cases hc
    have hpoint : c ≠ '.' := by
      intro e
      subst e
      rcases hc with hc | hc
      · cases hc
      · cases hc
    refine ⟨List.takeWhile_cons_of_neg hdigit, List.dropWhile_cons_of_neg hdigit, ?_⟩
    simpa using hpoint

theorem readsLiterals_decimal : ReadsLiterals strtodDecimal Literal.number := by
  intro l s hs
  obtain ⟨htake, hdrop, hpoint⟩ := hs.not_literal
  have hwhole := l.whole_digits
  have hfraction := l.fraction_digits
  unfold strtodDecimal Literal.number Literal.text
  rw [List.append_assoc, List.takeWhile_append_of_pos hwhole, List.dropWhile_append_of_pos hwhole]
  cases hf : l.fraction with
  | none =>
    simp only [Option.elim_none, List.nil_append, htake, hdrop, List.append_nil, add_zero]
    split
    · exact absurd rfl hpoint
    · rfl
  | some f =>
    obtain ⟨-, hdigits⟩ := hfraction f hf
    have htakeP : ('.' :: (f ++ s)).takeWhile Char.isDigit = [] := List.takeWhile_cons_of_neg (by decide)
    have hdropP : ('.' :: (f ++ s)).dropWhile Char.isDigit = '.' :: (f ++ s) := List.dropWhile_cons_of_neg (by decide)
    simp only [Option.elim_some, List.cons_append, htakeP, hdropP, List.takeWhile_append_of_pos hdigits, htake,
      List.append_nil, List.length_append, List.length_cons]
    rw [Nat.add_right_comm, Nat.add_assoc]

/-- The text "- (2.5-+1)". -/
theorem parse_spelled_signs : parserOpen strtodDecimal ['-', ' ', '(', '2', '.', '5', '-', '+', '1', ')'] =
    .ok (mkd .neg .null (mkd .sub (.node .val (5 / 2) .null .null) (.node .val 1 .null .null)), []) := by
  let a : Literal := ⟨['2'], some ['5'], by simp, by simp, by simp⟩
  let b : Literal := ⟨['1'], none, by simp, by simp, by simp⟩
  have hsub : Spells 0 (.bin .sub (.lit a) (.lit b)) [.lit a, .mark .sub, .mark .add, .lit b] :=
    @Spells.bin 0 .sub _ _ [.lit a] _ (by decide) (.lit 0 a) (.plus (by decide) (.lit 2 b))
  have hspell : Spells 0 (.neg (.bin .sub (.lit a) (.lit b)))
      [.mark .sub, .mark .open_, .lit a, .mark .sub, .mark .add, .lit b, .mark .close] := .neg (by decide)
        (.paren 2 hsub)
  have hnone : ∀ x ∈ ([] : List Char), isspace x = true := fun x hx => absurd hx List.not_mem_nil
  have hspace : ∀ x ∈ [' '], isspace x = true := by simp [isspace]
  have hlay : Rendered [.mark .sub, .mark .open_, .lit a, .mark .sub, .mark .add, .lit b, .mark .close]
      ['-', ' ', '(', '2', '.', '5', '-', '+', '1', ')'] :=
    .cons hnone (.cons hspace (.cons hnone (.cons hnone (.cons hnone (.cons hnone (.cons hnone (.nil hnone)))))))
  have h := (parse_spelled strtodDecimal Literal.number readsLiterals_decimal _ _ _ hspell hlay).1
  have h2 : '2'.toNat - 48 = 2 := rfl
  have h5 : '5'.toNat - 48 = 5 := rfl
  have h1 : '1'.toNat - 48 = 1 := rfl
  have ha : Literal.number a = 5 / 2 := by norm_num [Literal.number, digits, a, h2, h5]
  have hb : Literal.number b = 1 := by norm_num [Literal.number, digits, b, h1]
  rw [h]
  simp only [Expr.dag, ha, hb, BinOp.dagOp]

end Cs238p.Jit
