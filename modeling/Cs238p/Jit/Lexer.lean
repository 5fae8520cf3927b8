/-
  Cs238p.Jit.Lexer — the tokenizer of the expression compiler (`project-1/lexer.c`).

  A C string is its list of characters up to the terminator. `strtod` belongs to the
  C library and is a parameter: on a suffix of the text it answers a value and how many
  characters it took (0: no conversion, the code's `s == e`). Values are of any type
  `V` with a zero, the `0.0` that `memset` leaves in a token that carries none.

  The token array grows by `realloc` every 100 tokens; `room` is what the last one
  asked for, and storing a token past it is an access outside the array
  (`mktoken_in_room`: it never happens).

  Proved: the lexer ends on every text, inside its array (`tokenize_in_bounds`), and no
  token it makes is the parser's end marker `LEXER_OP_` (`tokenize_ops`).
-/
import Mathlib.Data.Nat.Basic
import Mathlib.Data.List.Basic

namespace Cs238p.Jit

/-- How a run can end other than by returning. -/
inductive Stop where
  /-- The model's bound on the depth of calls and loops; no run reaches it. -/
  | fuel
  /-- A failed `assert`. -/
  | assert
  /-- An access outside an array, at this index. -/
  | bounds (i : Nat)
  deriving DecidableEq, Repr

/-- `enum lexer_token_op`; `sentinel` is `LEXER_OP_`. -/
inductive LexerOp where
  | sentinel
  | val
  | add
  | sub
  | mul
  | div
  | open_
  | close
  deriving DecidableEq, Repr

structure LexerToken (V : Type) where
  op : LexerOp
  val : V
  deriving DecidableEq, Repr

structure Lexer (V : Type) where
  size : Nat
  tokens : List (LexerToken V)
  /-- How many tokens the array holds room for. -/
  room : Nat
  deriving DecidableEq, Repr

variable {V : Type} [Zero V]

/-- `mktoken`, with the value `tokenize` stores in the token it gets back. -/
def mktoken (lexer : Lexer V) (op : LexerOp) (val : V) : Except Stop (Lexer V) :=
  let room := if lexer.size % 100 = 0 then lexer.size + 100 else lexer.room
  if lexer.size < room then .ok ⟨lexer.size + 1, lexer.tokens ++ [⟨op, val⟩], room⟩
  else .error (.bounds lexer.size)

/-- The token of `OPERATORS[i]`, `LEXER_OP_ADD + i`. -/
def operator : Char → Option LexerOp
  | '+' => some .add
  | '-' => some .sub
  | '*' => some .mul
  | '/' => some .div
  | '(' => some .open_
  | ')' => some .close
  | _ => none

/-- `isspace` in the C locale. -/
def isspace (c : Char) : Bool := c = ' ' || (9 ≤ c.toNat && c.toNat ≤ 13)

variable (strtod : List Char → V × Nat)

/-- `tokenize`; `none` is its return value -1. -/
def tokenize (lexer : Lexer V) : List Char → Except Stop (Option (Lexer V))
  | [] => .ok (some lexer)
  | c :: cs =>
    match operator c with
    | some op =>
      match mktoken lexer op 0 with
      | .ok lexer => tokenize lexer cs
      | .error e => .error e
    | none =>
      if isspace c then tokenize lexer cs
      else
        let (v, n) := strtod (c :: cs)
        match mktoken lexer .val v with
        | .ok lexer => if n = 0 then .ok none else tokenize lexer (cs.drop (n - 1))
        | .error e => .error e
termination_by s => s.length
decreasing_by all_goals simp only [List.length_cons, List.length_drop]; omega

/-- `lexer_open`. -/
def lexerOpen (s : List Char) : Except Stop (Option (Lexer V)) :=
  if s.length = 0 then .error .assert else tokenize strtod ⟨0, [], 0⟩ s

/-! ## The token array -/

/-- The array is as long as the count says, and between two `realloc`s there is room. -/
structure Lexer.Ok (lexer : Lexer V) : Prop where
  size_eq : lexer.size = lexer.tokens.length
  room_ge : lexer.size % 100 ≠ 0 → lexer.size < lexer.room
  le_room : lexer.size ≤ lexer.room
  room_dvd : lexer.room % 100 = 0
  ops : ∀ t ∈ lexer.tokens, t.op ≠ .sentinel

omit [Zero V] in
theorem mktoken_in_room {lexer : Lexer V} (h : lexer.Ok) (op : LexerOp) (hop : op ≠ .sentinel) (v : V) :
    ∃ lexer', mktoken lexer op v = .ok lexer' ∧ lexer'.Ok ∧ lexer'.tokens = lexer.tokens ++ [⟨op, v⟩] := by
  obtain ⟨h1, h2, h3, h4, h5⟩ := h
  have hops : ∀ t ∈ lexer.tokens ++ [⟨op, v⟩], t.op ≠ LexerOp.sentinel := by
    intro t ht
    rcases List.mem_append.mp ht with ht | ht
    · exact h5 t ht
    · simp only [List.mem_singleton] at ht; subst ht; exact hop
  unfold mktoken
  by_cases e : lexer.size % 100 = 0
  · rw [if_pos e, if_pos (by omega)]
    exact ⟨_, rfl, ⟨by simp [h1], by simp only; omega, by simp only; omega, by simp only; omega, hops⟩, rfl⟩
  · have hr := h2 e
    rw [if_neg e, if_pos hr]
    refine ⟨_, rfl, ⟨by simp [h1], ?_, by simp only; omega, h4, hops⟩, rfl⟩
    intro hn
    -- the room is a multiple of 100, so a full array is at the next `realloc`
    simp only at hn ⊢
    omega

theorem operator_ne {c : Char} {op : LexerOp} (h : operator c = some op) : op ≠ .sentinel := by
  unfold operator at h
  split at h <;> simp_all <;> (rintro rfl; simp_all)

/-- The lexer ends inside its array, and what it makes is a list of real tokens. -/
theorem tokenize_in_bounds {lexer : Lexer V} (h : lexer.Ok) (s : List Char) :
    tokenize strtod lexer s = .ok none ∨ ∃ lexer', tokenize strtod lexer s = .ok (some lexer') ∧ lexer'.Ok := by
  fun_induction tokenize strtod lexer s with
  | case1 lexer => exact Or.inr ⟨lexer, rfl, h⟩
  | case2 lexer c cs op hop lexer' hm ih =>
    obtain ⟨l, hl, hok, -⟩ := mktoken_in_room h op (operator_ne hop) 0
    rw [hm] at hl; cases hl
    exact ih hok
  | case3 lexer c cs op hop e hm =>
    obtain ⟨l, hl, -⟩ := mktoken_in_room h op (operator_ne hop) 0
    rw [hm] at hl; cases hl
  | case4 lexer c cs _ _ ih => exact ih h
  | case5 => exact Or.inl rfl
  | case6 lexer c cs _ _ v n _ lexer' hm _ ih =>
    obtain ⟨l, hl, hok, -⟩ := mktoken_in_room h .val (by simp) v
    rw [hm] at hl; cases hl
    exact ih hok
  | case7 lexer c cs _ _ v n _ e hm =>
    obtain ⟨l, hl, -⟩ := mktoken_in_room h .val (by simp) v
    rw [hm] at hl; cases hl

omit [Zero V] in
theorem ok_empty : (⟨0, [], 0⟩ : Lexer V).Ok :=
  ⟨rfl, fun h => absurd rfl h, Nat.le_refl _, rfl, fun _ h => absurd h List.not_mem_nil⟩

theorem lexerOpen_ok {s : List Char} {lexer : Lexer V} (h : lexerOpen strtod s = .ok (some lexer)) : lexer.Ok := by
  unfold lexerOpen at h
  split at h
  · cases h
  · rcases tokenize_in_bounds strtod ok_empty s with e | ⟨l, e, hl⟩
    · rw [e] at h; cases h
    · rw [e] at h; cases h; exact hl

end Cs238p.Jit
