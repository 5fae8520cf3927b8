/-
  Cs238p.Jit.Constants — the constants of the generated program (`project-1/main.c`): the
  value of a VAL node is printed with "%f", six digits after the point, and the C compiler
  reads that text.

  A literal with more digits is not the constant that stands for it: 0.0000001 is printed as
  0.000000, and a division by it has value 0 (`a_divisor_becomes_zero`).

  Proved, of every text of every expression: each literal's constant is the literal's number,
  and the program computes the expression as written, iff in every literal the digits after
  the sixth of the fraction are zeros (`constants_survive_iff`).
-/
import Cs238p.Jit.Codegen
import Cs238p.Jit.Spelling
import Cs238p.Lib.FixedPoint

namespace Cs238p.Jit

open FixedPoint

/-! ## Printing and reading a constant -/

/-- `n` millionths, with six digits after the point. -/
def millionths (n : Nat) : Literal where
  whole := Nat.toDigits 10 (n / 10 ^ 6)
  fraction := some (fixedDigits 6 (n % 10 ^ 6))
  whole_ne := Nat.toDigits_ne_nil
  whole_digits := fun _ hc => Nat.isDigit_of_mem_toDigits (by decide) (by decide) hc
  fraction_digits := by
    rintro f hf
    cases hf
    refine ⟨fun h => ?_, fun c hc => isDigit_of_mem_fixedDigits hc⟩
    have hlen := congrArg List.length h
    rw [length_fixedDigits] at hlen
    cases hlen

/-- `printf("%f", val)`. -/
def formatF (val : ℚ) : List Char :=
  if val < 0 then '-' :: (millionths (roundEven (-val * 10 ^ 6)).toNat).text
  else (millionths (roundEven (val * 10 ^ 6)).toNat).text

/-- The number that a constant of C denotes. -/
def constant : List Char → ℚ
  | '-' :: text => -(strtodDecimal text).1
  | text => (strtodDecimal text).1

/-- The DAG with the numbers that the printed constants denote. -/
def ParserDag.printed : ParserDag ℚ → ParserDag ℚ
  | .null => .null
  | .node op val left right => .node op (constant (formatF val)) left.printed right.printed

/-- The program that the C compiler reads. -/
def emitted (varId : Int) (dag : ParserDag ℚ) : Program := generate varId dag.printed

/-! ## The expression -/

/-- The digits after the sixth of the fraction are zeros. -/
def Literal.SixDigits (l : Literal) : Prop := ∀ f, l.fraction = some f → ∀ c ∈ f.drop 6, c = '0'

/-- The value of an expression as it is written; a division by zero has value 0. -/
def Expr.value : Expr → ℚ
  | .lit l => l.number
  | .neg e => -e.value
  | .bin .mul l r => l.value * r.value
  | .bin .div l r => if r.value = 0 then 0 else l.value / r.value
  | .bin .add l r => l.value + r.value
  | .bin .sub l r => l.value - r.value

/-- The constants are the literals' numbers, and so the text is parsed and compiled to a
    program that hands the expression's value to the callback. -/
structure Survives (strtod : List Char → ℚ × Nat) (e : Expr) (s : List Char) : Prop where
  constants : ∀ l ∈ e.literals, constant (formatF l.number) = l.number
  runs : ∃ dag err, parserOpen strtod s = .ok (dag, err) ∧ ∀ (varId : Int) (callback : ℚ → ℚ),
    (emitted varId dag).call callback = some (callback e.value)

variable {q : ℚ} {e : Expr} {l : Literal} {cs : List Char}

theorem digits_eq (cs : List Char) : digits cs = (Nat.ofDigitChars 10 cs 0 : ℚ) := by
  have hfold : ∀ n : Nat, cs.foldl (fun (n : ℚ) c => 10 * n + (c.toNat - 48 : Nat)) n = (Nat.ofDigitChars 10 cs n : ℚ) := by
    induction cs with
    | nil => exact fun n => rfl
    | cons c cs ih =>
      intro n
      rw [List.foldl_cons, Nat.ofDigitChars_cons, ← ih]
      congr 1
      push_cast
      rfl
  exact_mod_cast hfold 0

theorem number_millionths (n : Nat) : (millionths n).number = n / 10 ^ 6 := by
  have hmod : n % 10 ^ 6 < 10 ^ 6 := Nat.mod_lt _ (by decide)
  rw [Literal.number, millionths]
  simp only [Option.elim_some, digits_eq, Nat.ofDigitChars_ten_toDigits, ofDigitChars_fixedDigits hmod,
    length_fixedDigits]
  have hdiv : (n : ℚ) = (10 ^ 6 * (n / 10 ^ 6) + n % 10 ^ 6 : Nat) := by rw [Nat.div_add_mod]
  conv => rhs; rw [hdiv]
  push_cast
  field_simp
  ring

/-- A text that begins with a digit has no sign. -/
theorem constant_text (l : Literal) : constant l.text = l.number := by
  have hread := readsLiterals_decimal l [] (fun c hc => by cases hc)
  obtain ⟨c, cs, htext, hc⟩ := l.exists_cons
  rw [List.append_nil, htext] at hread
  have hne : c ≠ '-' := by
    rintro rfl
    exact absurd hc (by decide)
  rw [htext, constant, hread]
  intro text h
  cases h
  exact hne rfl

theorem number_nonneg (l : Literal) : 0 ≤ l.number := by
  rw [Literal.number]
  cases hf : l.fraction with
  | none =>
    rw [digits_eq, Option.elim_none]
    positivity
  | some f =>
    rw [digits_eq, Option.elim_some, digits_eq]
    positivity

/-- The number, rounded to six digits. -/
theorem constant_formatF (h : 0 ≤ q) : constant (formatF q) = roundEven (q * 10 ^ 6) / 10 ^ 6 := by
  have hnonneg : 0 ≤ roundEven (q * 10 ^ 6) := roundEven_nonneg (by positivity)
  have hcast : (((roundEven (q * 10 ^ 6)).toNat : Nat) : ℚ) = roundEven (q * 10 ^ 6) := by
    exact_mod_cast Int.toNat_of_nonneg hnonneg
  rw [formatF, if_neg (not_lt.mpr h), constant_text, number_millionths, hcast]

/-- A literal survives iff six digits are enough. -/
theorem constant_iff (l : Literal) : constant (formatF l.number) = l.number ↔ l.SixDigits := by
  rw [constant_formatF (number_nonneg l), div_eq_iff (by norm_num), roundEven_eq_iff, Literal.number, digits_eq]
  have hdigits := l.fraction_digits
  unfold Literal.SixDigits
  have hwhole : ∀ x : ℚ, ((Nat.ofDigitChars 10 l.whole 0 : ℚ) + x) * 10 ^ 6 =
      (Nat.ofDigitChars 10 l.whole 0 * 10 ^ 6 : Nat) + x * 10 ^ 6 := fun x => by
    push_cast
    ring
  rw [hwhole, isInteger_natCast_add]
  cases hf : l.fraction with
  | none =>
    refine iff_of_true ⟨0, ?_⟩ (fun f h => by cases h)
    rw [Option.elim_none, zero_mul, Int.cast_zero]
  | some f =>
    rw [Option.elim_some, digits_eq, fraction_integer_iff (hdigits f hf).2]
    exact ⟨fun h g hg => by cases hg; exact h, fun h => h f rfl⟩

/-! ## The program -/

theorem printed_shape {d : ParserDag ℚ} (h : d.Shape) : d.printed.Shape := by
  induction h with
  | val v => exact .val _
  | neg v _ ih => exact .neg _ ih
  | binary v hop _ _ ihl ihr => exact .binary _ hop ihl ihr

theorem dag_shape (value : Literal → ℚ) (e : Expr) : (e.dag value).Shape := by
  induction e with
  | lit l => exact .val _
  | neg e ih => exact .neg _ ih
  | bin op l r ihl ihr =>
    refine .binary _ ?_ ihl ihr
    cases op <;> decide

theorem emitted_call (e : Expr) (varId : Int) (callback : ℚ → ℚ) :
    (emitted varId (e.dag Literal.number)).call callback = some (callback (e.dag Literal.number).printed.value) := by
  have hshape := printed_shape (dag_shape Literal.number e)
  obtain ⟨env, hexec, hval, -, -⟩ := (gen_simulates hshape varId).run (fun _ => none) fun _ _ => rfl
  show (generate varId (e.dag Literal.number).printed).call callback = _
  unfold Program.call
  rw [generate_body, generate_result, hexec, Option.bind_some, hval]
  rfl

/-- With constants that survive, the DAG has the expression's value. -/
theorem value_printed (h : ∀ l ∈ e.literals, constant (formatF l.number) = l.number) :
    (e.dag Literal.number).printed.value = e.value := by
  induction e with
  | lit l => exact h l List.mem_cons_self
  | neg e ih =>
    have he := ih h
    simp only [Expr.dag, mkd, ParserDag.printed, ParserDag.value, Expr.value, he]
  | bin op l r ihl ihr =>
    have hl := ihl fun x hx => h x (List.mem_append_left _ hx)
    have hr := ihr fun x hx => h x (List.mem_append_right _ hx)
    cases op <;>
      simp only [Expr.dag, mkd, BinOp.dagOp, ParserDag.printed, ParserDag.value, Expr.value, hl, hr]

/-- For every expression and every text that spells it, in any layout: the literals survive
    and the program computes the expression as written iff six digits after the point are
    enough for every literal. -/
theorem constants_survive_iff (strtod : List Char → ℚ × Nat) (hread : ReadsLiterals strtod Literal.number) (e : Expr)
    (ps : List Piece) (s : List Char) (hspell : Spells 0 e ps) (hlay : Rendered ps s) :
    Survives strtod e s ↔ ∀ l ∈ e.literals, l.SixDigits := by
  constructor
  · exact fun h l hl => (constant_iff l).mp (h.constants l hl)
  · intro h
    have hconst : ∀ l ∈ e.literals, constant (formatF l.number) = l.number := fun l hl => (constant_iff l).mpr (h l hl)
    refine ⟨hconst, e.dag Literal.number, [], parserOpen_spelled hread hspell hlay, fun varId callback => ?_⟩
    rw [emitted_call, value_printed hconst]

/-- "1.5". -/
def oneAndAHalf : Literal := ⟨['1'], some ['5'], by simp, by simp, by simp⟩

theorem constants_survive_iff_oneAndAHalf :
    Survives strtodDecimal (.neg (.lit oneAndAHalf)) ['-', '1', '.', '5'] ↔
      ∀ l ∈ (Expr.neg (.lit oneAndAHalf)).literals, l.SixDigits :=
  constants_survive_iff strtodDecimal readsLiterals_decimal _ _ _ (spells_print (.neg (.lit oneAndAHalf)) 0)
    (rendered_flatMap _)

/-- The expression 1/0.0000001. -/
def tenMillion : Expr :=
  .bin .div (.lit ⟨['1'], none, by simp, by simp, by simp⟩)
    (.lit ⟨['0'], some ['0', '0', '0', '0', '0', '0', '1'], by simp, by simp, by simp⟩)

theorem value_tenMillion : (tenMillion.dag Literal.number).printed.value = 0 ∧ tenMillion.value = 10 ^ 7 := by
  decide +kernel

/-- It has value 0 in the program. -/
theorem a_divisor_becomes_zero : ¬ ∀ (e : Expr) (ps : List Piece) (s : List Char), Spells 0 e ps → Rendered ps s →
    Survives strtodDecimal e s := by
  intro hall
  have hspell := spells_print tenMillion 0
  have hlay := rendered_flatMap (tenMillion.print 0)
  obtain ⟨dag, err, hparse, hrun⟩ := (hall tenMillion _ _ hspell hlay).runs
  rw [parserOpen_spelled readsLiterals_decimal hspell hlay] at hparse
  cases hparse
  have hcall := hrun 0 id
  rw [emitted_call, value_tenMillion.1, value_tenMillion.2] at hcall
  exact absurd hcall (by decide)

end Cs238p.Jit
