/-
  Cs238p.Jit.Alloc — `project-1/lexer.c` and `project-1/parser.c` with the blocks they
  allocate: `struct parser`, `struct lexer`, the token array and the nodes of the DAG.

  A pointer is an `Option Nat`, NULL being `none`. The nodes live in the heap, the contents
  of the other blocks in `Parser` and `Lexer`; any allocator may place or refuse any
  request. Touching a block that is not allocated, or freeing it, is `Fault.memory`.

  The functions are the ones of `Lexer.lean` and `Parser.lean` under the same names, line
  by line, with the allocations, assignments and frees; `compile` is what `main` does with
  them.
-/
import Mathlib.Data.Finset.Card
import Cs238p.Lib.Blocks
import Cs238p.Jit.Parser
import Cs238p.Jit.Codegen

namespace Cs238p.Jit.Alloc

open Blocks

/-- `struct parser_dag`. -/
structure DagCell (V : Type) where
  op : DagOp
  val : V
  left : Option Nat
  right : Option Nat

inductive Block (V : Type) where
  | parser
  | lexer
  | tokens
  | dag (c : DagCell V)

abbrev Memory (V : Type) := Heap (Block V)

inductive Fault where
  | stop (e : Stop)
  /-- A block that is not allocated, or is not what it is taken for. -/
  | memory (a : Nat)
  deriving DecidableEq, Repr

variable {V : Type}

def readDag (m : Memory V) (a : Nat) : Except Fault (DagCell V) :=
  if a ∈ m.live then
    match m.cell a with
    | .dag c => .ok c
    | _ => .error (.memory a)
  else .error (.memory a)

/-- An assignment to a field of a node. -/
def editDag (m : Memory V) (a : Nat) (f : DagCell V → DagCell V) : Except Fault (Memory V) :=
  match readDag m a with
  | .error e => .error e
  | .ok c => .ok (m.set a (.dag (f c)))

/-- `FREE`. -/
def free (m : Memory V) : Option Nat → Except Fault (Memory V)
  | none => .ok m
  | some a => if a ∈ m.live then .ok (m.free a) else .error (.memory a)

/-! ## The lexer -/

section

variable [Zero V] (A : Allocator)

/-- What a function of the lexer leaves: its result, the lines traced, `lexer->tokens` and the
    memory. -/
structure Lexed (V : Type) (R : Type) where
  ret : Option R
  err : List String
  tokens : Option Nat
  memory : Memory V

/-- `mktoken`, with the value `tokenize` stores in the token it gets back. -/
def mktoken (lexer : Lexer V) (op : LexerOp) (val : V) (tokens : Option Nat) (m : Memory V) :
    Except Fault (Lexed V (Lexer V)) :=
  if lexer.size % 100 = 0 then
    if tokens.all (· ∈ m.live) then
      match m.realloc A tokens .tokens with
      | (none, m) => .ok ⟨none, ["out of memory"], tokens, m⟩
      | (some tokens, m) =>
        match Jit.mktoken lexer op val with
        | .error e => .error (.stop e)
        | .ok lexer => .ok ⟨some lexer, [], some tokens, m⟩
    else .error (.memory (tokens.getD 0))
  else
    match Jit.mktoken lexer op val with
    | .error e => .error (.stop e)
    | .ok lexer => .ok ⟨some lexer, [], tokens, m⟩

variable (strtod : List Char → V × Nat)

/-- `tokenize`; without a result it is -1. -/
def tokenize (lexer : Lexer V) (tokens : Option Nat) (m : Memory V) : List Char → Except Fault (Lexed V (Lexer V))
  | [] => .ok ⟨some lexer, [], tokens, m⟩
  | c :: cs =>
    match operator c with
    | some op =>
      match mktoken A lexer op 0 tokens m with
      | .error e => .error e
      | .ok ⟨none, err, tokens, m⟩ => .ok ⟨none, err ++ ["^"], tokens, m⟩
      | .ok ⟨some lexer, _, tokens, m⟩ => tokenize lexer tokens m cs
    | none =>
      if isspace c then tokenize lexer tokens m cs
      else
        let (v, n) := strtod (c :: cs)
        match mktoken A lexer .val v tokens m with
        | .error e => .error e
        | .ok ⟨none, err, tokens, m⟩ => .ok ⟨none, err ++ ["^"], tokens, m⟩
        | .ok ⟨some lexer, _, tokens, m⟩ =>
          if n = 0 then .ok ⟨none, ["lexer"], tokens, m⟩ else tokenize lexer tokens m (cs.drop (n - 1))
termination_by s => s.length
decreasing_by all_goals simp only [List.length_cons, List.length_drop]; omega

/-- `lexer_close` of a lexer that is there. -/
def lexerClose (lexer : Nat) (tokens : Option Nat) (m : Memory V) : Except Fault (Memory V) := do
  let m ← free m tokens
  free m (some lexer)

/-- `lexer_open`: the block of the lexer and the lexer. -/
def lexerOpen (s : List Char) (m : Memory V) : Except Fault (Lexed V (Nat × Lexer V)) :=
  if s.length = 0 then .error (.stop .assert)
  else
    match m.malloc A .lexer with
    | (none, m) => .ok ⟨none, ["out of memory"], none, m⟩
    | (some block, m) =>
      match tokenize A strtod ⟨0, [], 0⟩ none m s with
      | .error e => .error e
      | .ok ⟨none, err, tokens, m⟩ =>
        match lexerClose block tokens m with
        | .error e => .error e
        | .ok m => .ok ⟨none, err ++ ["^"], none, m⟩
      | .ok ⟨some lexer, err, tokens, m⟩ => .ok ⟨some (block, lexer), err, tokens, m⟩

end

/-! ## The descent -/

/-- What a parsing function answers: a node or NULL, the parser and the memory. -/
abbrev Found (V : Type) := Except Fault (Option Nat × Parser V × Memory V)

section Descent

variable [Zero V] (A : Allocator)

/-- `MKD`, without its `return`. -/
def mkd (op : DagOp) (m : Memory V) : Option Nat × Memory V := m.malloc A (.dag ⟨op, 0, none, none⟩)

/-- `MKD`'s `return NULL`. -/
def outOfMemory (p : Parser V) (m : Memory V) : Found V := .ok (none, trace p "out of memory", m)

section

variable (expr : Parser V → Memory V → Found V)

/-- `expr_primary`. -/
def exprPrimary (p : Parser V) (m : Memory V) : Found V :=
  if match_ p .val then
    match mkd A .val m with
    | (none, m) => outOfMemory p m
    | (some dag, m) =>
      match editDag m dag fun c => { c with val := (next p).val } with
      | .error e => .error e
      | .ok m => .ok (some dag, forward p, m)
  else if match_ p .open_ then
    match expr (forward p) m with
    | .error e => .error e
    | .ok (none, p, m) => .ok (none, traceOnce p "invalid sub-expression", m)
    | .ok (some dag, p, m) =>
      if match_ p .close then .ok (some dag, forward p, m)
      else .ok (none, traceOnce p "expecting ')'", m)
  else .ok (none, p, m)

/-- `expr_unary`. -/
def exprUnary : Nat → Parser V → Memory V → Found V
  | 0, _, _ => .error (.stop .fuel)
  | fuel + 1, p, m =>
    if match_ p .add then
      match exprUnary fuel (forward p) m with
      | .error e => .error e
      | .ok (none, p, m) => .ok (none, traceOnce p "invalid unary '+' operand", m)
      | .ok (some dag, p, m) => .ok (some dag, p, m)
    else if match_ p .sub then
      match mkd A .neg m with
      | (none, m) => outOfMemory p m
      | (some dag, m) =>
        match exprUnary fuel (forward p) m with
        | .error e => .error e
        | .ok (right, p, m) =>
          match editDag m dag fun c => { c with right } with
          | .error e => .error e
          | .ok m =>
            match right with
            | none => .ok (none, traceOnce p "invalid unary '-' operand", m)
            | some _ => .ok (some dag, p, m)
    else exprPrimary A expr p m

/-- The `for (;;)` of `expr_multiplicative_` and `expr_additive_`. -/
def binaryLoop (opOf : LexerOp → Option DagOp) (tbl : List String) (operand : Parser V → Memory V → Found V) :
    Nat → Parser V → Memory V → Nat → Nat → Found V
  | 0, _, _, _, _ => .error (.stop .fuel)
  | fuel + 1, p, m, left, dag =>
    match opOf (next p).op with
    | none => .ok (some dag, p, m)
    | some op =>
      match mkd A op m with
      | (none, m) => outOfMemory p m
      | (some dag, m) =>
        match editDag m dag fun c => { c with left := some left } with
        | .error e => .error e
        | .ok m =>
          match operand (forward p) m with
          | .error e => .error e
          | .ok (right, p, m) =>
            match editDag m dag fun c => { c with right } with
            | .error e => .error e
            | .ok m =>
              match right with
              | none =>
                match readDag m dag with
                | .error e => .error e
                | .ok c =>
                  match tbl[c.op.toNat - DagOp.mul.toNat]? with
                  | some name => .ok (none, traceOnce p ("invalid '" ++ name ++ "' operand"), m)
                  | none => .error (.stop (.bounds (c.op.toNat - DagOp.mul.toNat)))
              | some _ =>
                match binaryLoop opOf tbl operand fuel p m dag dag with
                | .error e => .error e
                | .ok (none, p, m) => .ok (none, traceOnce p "", m)
                | .ok (some dag, p, m) => binaryLoop opOf tbl operand fuel p m left dag

/-- `expr_multiplicative_`. -/
def exprMultiplicative_ (fuel : Nat) (p : Parser V) (m : Memory V) (left : Nat) : Found V :=
  binaryLoop A mulOf ["*", "/"] (exprUnary A expr fuel) fuel p m left left

/-- `expr_multiplicative`. -/
def exprMultiplicative (fuel : Nat) (p : Parser V) (m : Memory V) : Found V :=
  match exprUnary A expr fuel p m with
  | .error e => .error e
  | .ok (none, p, m) => .ok (none, p, m)
  | .ok (some dag, p, m) => exprMultiplicative_ A expr fuel p m dag

/-- `expr_additive_`. -/
def exprAdditive_ (fuel : Nat) (p : Parser V) (m : Memory V) (left : Nat) : Found V :=
  binaryLoop A addOf ["+", "-"] (exprMultiplicative A expr fuel) fuel p m left left

/-- `expr_additive`. -/
def exprAdditive (fuel : Nat) (p : Parser V) (m : Memory V) : Found V :=
  match exprMultiplicative A expr fuel p m with
  | .error e => .error e
  | .ok (none, p, m) => .ok (none, p, m)
  | .ok (some dag, p, m) => exprAdditive_ A expr fuel p m dag

end

/-- `expr`. -/
def expr : Nat → Parser V → Memory V → Found V
  | 0, _, _ => .error (.stop .fuel)
  | fuel + 1, p, m => exprAdditive A (expr fuel) (fuel + 1) p m

/-- `top`. -/
def top (fuel : Nat) (p : Parser V) (m : Memory V) : Found V :=
  match expr A fuel p m with
  | .error e => .error e
  | .ok (none, p, m) => .ok (none, traceOnce p "invalid expression", m)
  | .ok (some dag, p, m) =>
    if match_ p .sentinel then .ok (some dag, p, m)
    else .ok (none, traceOnce p "bogus trailing content", m)

end Descent

/-! ## Opening, using and closing a parser -/

/-- `free_dag`. -/
def freeDag : Nat → Memory V → Option Nat → Except Fault (Memory V)
  | 0, _, _ => .error (.stop .fuel)
  | _ + 1, m, none => .ok m
  | fuel + 1, m, some dag =>
    match readDag m dag with
    | .error e => .error e
    | .ok c =>
      match freeDag fuel m c.left with
      | .error e => .error e
      | .ok m =>
        match readDag m dag with
        | .error e => .error e
        | .ok c =>
          match freeDag fuel m c.right with
          | .error e => .error e
          | .ok m => free m (some dag)

/-- `parser_close` of a parser that is there, whose lexer is closed. -/
def parserClose (m : Memory V) (parser : Nat) (dag : Option Nat) : Except Fault (Memory V) := do
  let m ← freeDag (m.live.card + 1) m dag
  free m (some parser)

/-- What `parser_open` answers: the block of the parser and its DAG, or NULL. -/
structure Opened (V : Type) where
  ret : Option (Nat × Nat)
  err : List String
  memory : Memory V

/-- The failures of `parser_open`: `parser_close` with a NULL DAG. -/
def parserFailed (parser : Nat) (err : List String) (m : Memory V) : Except Fault (Opened V) :=
  (parserClose m parser none).map fun m => ⟨none, err ++ ["^"], m⟩

/-- `parser_open`. -/
def parserOpen [Zero V] (A : Allocator) (strtod : List Char → V × Nat) (s : List Char) (m : Memory V) :
    Except Fault (Opened V) :=
  if s.length = 0 then .error (.stop .assert)
  else
    match m.malloc A .parser with
    | (none, m) => .ok ⟨none, ["out of memory"], m⟩
    | (some parser, m) => do
      let l ← lexerOpen A strtod s m
      match l.ret with
      | none => parserFailed parser l.err l.memory
      | some (block, lexer) =>
        if lexer.size = 0 then
          let m ← lexerClose block l.tokens l.memory
          parserFailed parser [] m
        else
          let (dag, p, m) ← top A (lexer.size + 1) ⟨false, 0, lexer.tokens, []⟩ l.memory
          let m ← lexerClose block l.tokens m
          match dag with
          | none => parserFailed parser p.stderr m
          | some dag => return ⟨some (parser, dag), p.stderr, m⟩

/-- `genFuncBodyFromDag`. -/
def genFuncBodyFromDag : Nat → Memory ℚ → Int → Option Nat → Except Fault Gen
  | 0, _, _, _ => .error (.stop .fuel)
  | _ + 1, _, varId, none => .ok ⟨-1, varId, []⟩
  | fuel + 1, m, varId, some dag => do
    let c ← readDag m dag
    let l ← genFuncBodyFromDag fuel m varId c.left
    let r ← genFuncBodyFromDag fuel m l.varId c.right
    match lineOf r.varId l.ret r.ret c.val c.op with
    | none => return ⟨-1, r.varId, l.out ++ r.out⟩
    | some line => return ⟨r.varId + 1 - 1, r.varId + 1, l.out ++ r.out ++ [line]⟩

/-- `main`, until the C file is written and the parser closed. -/
def compile (A : Allocator) (strtod : List Char → ℚ × Nat) (varId : Int) (s : List Char) (m : Memory ℚ) :
    Except Fault (Option Program × List String × Memory ℚ) := do
  let o ← parserOpen A strtod s m
  match o.ret with
  | none => return (none, o.err, o.memory)
  | some (parser, dag) =>
    let g ← genFuncBodyFromDag (o.memory.live.card + 1) o.memory varId (some dag)
    let m ← parserClose o.memory parser (some dag)
    return (some ⟨g.out, g.ret⟩, o.err, m)

end Cs238p.Jit.Alloc
