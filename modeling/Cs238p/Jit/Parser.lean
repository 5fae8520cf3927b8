/-
  Cs238p.Jit.Parser — the recursive descent parser (`project-1/parser.c`).

  A `struct parser_dag *` is a `ParserDag`, with `null` for NULL: a function that
  returns `null` is one that returns NULL. The parser's state is the token array of its
  lexer, the current index `i`, the `stop` flag of `TRACE_ONCE` and the lines traced to
  stderr (`malloc` succeeds).

  The descent is mutually recursive through the parentheses of `expr_primary`, so the
  functions below `expr` take `expr` itself as an argument and `expr` ties the knot
  with fuel: one unit for a parenthesis, a sign, or an operator of a chain.
  `parserOpen` gives one unit more than there are tokens; `Cs238p.Jit.ParserProofs`
  shows that no run uses them up.

  `expr_multiplicative_` and `expr_additive_` are one loop over different operators,
  operand parsers and name tables (`binaryLoop`). Both index their table of two names
  by `dag->op - PARSER_DAG_MUL`; reading past it is `Stop.bounds`.
-/
import Cs238p.Jit.Lexer

namespace Cs238p.Jit

/-- `enum parser_dag_op`; `none_` is `PARSER_DAG_`. -/
inductive DagOp where
  | none_
  | val
  | neg
  | mul
  | div
  | add
  | sub
  deriving DecidableEq, Repr

def DagOp.toNat : DagOp → Nat
  | .none_ => 0
  | .val => 1
  | .neg => 2
  | .mul => 3
  | .div => 4
  | .add => 5
  | .sub => 6

inductive ParserDag (V : Type) where
  | null
  | node (op : DagOp) (val : V) (left right : ParserDag V)
  deriving DecidableEq, Repr

structure Parser (V : Type) where
  stop : Bool
  i : Nat
  lexer : List (LexerToken V)
  stderr : List String
  deriving DecidableEq, Repr

variable {V : Type} [Zero V]

/-- A value built by `MKD`: the operator, a zero value and the two children. -/
def mkd (op : DagOp) (left right : ParserDag V) : ParserDag V := .node op 0 left right

/-- `TRACE`, an empty message printing as `^`. -/
def trace (p : Parser V) (m : String) : Parser V :=
  { p with stderr := p.stderr ++ [if m = "" then "^" else m] }

/-- `TRACE_ONCE`. -/
def traceOnce (p : Parser V) (m : String) : Parser V :=
  if p.stop then p else trace { p with stop := true } m

/-- `next`: the current token, the `SENTINEL` at the end. -/
def next (p : Parser V) : LexerToken V := p.lexer.getD p.i ⟨.sentinel, 0⟩

/-- `match`. -/
def match_ (p : Parser V) (op : LexerOp) : Bool := op == (next p).op

def forward (p : Parser V) : Parser V := if p.i < p.lexer.length then { p with i := p.i + 1 } else p

/-- What a parsing function answers: a DAG or NULL, and the parser as it leaves it. -/
abbrev Answer (V : Type) := Except Stop (ParserDag V × Parser V)

/-! ## The descent -/

section Descent

variable (expr : Parser V → Answer V)

/-- `expr_primary : VAL | '(' expr ')'`. -/
def exprPrimary (p : Parser V) : Answer V :=
  if match_ p .val then .ok (.node .val (next p).val .null .null, forward p)
  else if match_ p .open_ then
    match expr (forward p) with
    | .error e => .error e
    | .ok (.null, p) => .ok (.null, traceOnce p "invalid sub-expression")
    | .ok (dag, p) =>
      if match_ p .close then .ok (dag, forward p)
      else .ok (.null, traceOnce p "expecting ')'")
  else .ok (.null, p)

/-- `expr_unary : ['+' '-'] expr_unary | expr_primary`. -/
def exprUnary : Nat → Parser V → Answer V
  | 0, _ => .error .fuel
  | fuel + 1, p =>
    if match_ p .add then
      match exprUnary fuel (forward p) with
      | .error e => .error e
      | .ok (.null, p) => .ok (.null, traceOnce p "invalid unary '+' operand")
      | .ok (dag, p) => .ok (dag, p)
    else if match_ p .sub then
      match exprUnary fuel (forward p) with
      | .error e => .error e
      | .ok (.null, p) => .ok (.null, traceOnce p "invalid unary '-' operand")
      | .ok (right, p) => .ok (mkd .neg .null right, p)
    else exprPrimary expr p

/-- The `for (;;)` of `expr_multiplicative_` and `expr_additive_`, entered with
    `dag = left`. The function calls itself on the DAG it has built (`binaryLoop` from
    its first iteration) and loops again with that call's result in `dag` and `left` as
    it was on entry. -/
def binaryLoop (opOf : LexerOp → Option DagOp) (tbl : List String) (operand : Parser V → Answer V) :
    Nat → Parser V → ParserDag V → ParserDag V → Answer V
  | 0, _, _, _ => .error .fuel
  | fuel + 1, p, left, dag =>
    match opOf (next p).op with
    | none => .ok (dag, p)
    | some op =>
      match operand (forward p) with
      | .error e => .error e
      | .ok (.null, p) =>
        match tbl[op.toNat - DagOp.mul.toNat]? with
        | some name => .ok (.null, traceOnce p ("invalid '" ++ name ++ "' operand"))
        | none => .error (.bounds (op.toNat - DagOp.mul.toNat))
      | .ok (right, p) =>
        match binaryLoop opOf tbl operand fuel p (mkd op left right) (mkd op left right) with
        | .error e => .error e
        | .ok (.null, p) => .ok (.null, traceOnce p "")
        | .ok (dag, p) => binaryLoop opOf tbl operand fuel p left dag

/-- The operators `expr_multiplicative_` matches. -/
def mulOf : LexerOp → Option DagOp
  | .mul => some .mul
  | .div => some .div
  | _ => none

/-- The operators `expr_additive_` matches. -/
def addOf : LexerOp → Option DagOp
  | .add => some .add
  | .sub => some .sub
  | _ => none

/-- `expr_multiplicative_`. -/
def exprMultiplicative_ (fuel : Nat) (p : Parser V) (left : ParserDag V) : Answer V :=
  binaryLoop mulOf ["*", "/"] (exprUnary expr fuel) fuel p left left

/-- `expr_multiplicative : expr_unary expr_multiplicative_`. -/
def exprMultiplicative (fuel : Nat) (p : Parser V) : Answer V :=
  match exprUnary expr fuel p with
  | .error e => .error e
  | .ok (.null, p) => .ok (.null, p)
  | .ok (dag, p) => exprMultiplicative_ expr fuel p dag

/-- `expr_additive_`. -/
def exprAdditive_ (fuel : Nat) (p : Parser V) (left : ParserDag V) : Answer V :=
  binaryLoop addOf ["+", "-"] (exprMultiplicative expr fuel) fuel p left left

/-- `expr_additive : expr_multiplicative expr_additive_`. -/
def exprAdditive (fuel : Nat) (p : Parser V) : Answer V :=
  match exprMultiplicative expr fuel p with
  | .error e => .error e
  | .ok (.null, p) => .ok (.null, p)
  | .ok (dag, p) => exprAdditive_ expr fuel p dag

end Descent

/-- `expr : expr_additive`. -/
def expr : Nat → Parser V → Answer V
  | 0, _ => .error .fuel
  | fuel + 1, p => exprAdditive (expr fuel) (fuel + 1) p

/-- `top : expr`. -/
def top (fuel : Nat) (p : Parser V) : Answer V :=
  match expr fuel p with
  | .error e => .error e
  | .ok (.null, p) => .ok (.null, traceOnce p "invalid expression")
  | .ok (dag, p) =>
    if match_ p .sentinel then .ok (dag, p)
    else .ok (.null, traceOnce p "bogus trailing content")

/-- `parser_open`: the DAG of the parser it returns, or `null` for NULL, and the lines
    on stderr. The only text of a failing lexer is that of `strtod` finding no number. -/
def parserOpen (strtod : List Char → V × Nat) (s : List Char) : Except Stop (ParserDag V × List String) :=
  match lexerOpen strtod s with
  | .error e => .error e
  | .ok none => .ok (.null, ["lexer", "^", "^"])
  | .ok (some lexer) =>
    if lexer.size = 0 then .ok (.null, ["^"])
    else
      match top (lexer.size + 1) ⟨false, 0, lexer.tokens, []⟩ with
      | .error e => .error e
      | .ok (.null, p) => .ok (.null, p.stderr ++ ["^"])
      | .ok (dag, p) => .ok (dag, p.stderr)

end Cs238p.Jit
