/-
  Cs238p.Jit.Grammar — what the parser is for: the grammar of expressions

    expr  := term {(+|-) term}
    term  := unary {(*|/) unary}
    unary := (+|-) unary | VAL | '(' expr ')'

  and the tree of each derivation. `Derives n ts d` says that the tokens `ts` derive
  from the nonterminal `n` with the DAG `d`. A chain `x₀ op x₁ op … op xₙ` derives from
  its prefix and its last operand, which makes the operators of a chain associate to the
  left; a term is an operand of a chain of `+` and `-`, so `*` and `/` bind tighter, and
  a unary operator applies to a unary. Unary plus and parentheses leave no node.

  Proved of every derivation: its DAG has the shape of the code's nodes (`shape`), and
  read from left to right it spells the operands and operators of the text, each once
  (`inorder_eq`).
-/
import Cs238p.Jit.Parser

namespace Cs238p.Jit

variable {V : Type} [Zero V]

inductive Nonterminal where
  | unary
  | term
  | expr
  deriving DecidableEq, Repr

inductive Derives : Nonterminal → List (LexerToken V) → ParserDag V → Prop
  | val {t : LexerToken V} : t.op = .val → Derives .unary [t] (.node .val t.val .null .null)
  | paren {o c : LexerToken V} {ts : List (LexerToken V)} {d : ParserDag V} : o.op = .open_ → c.op = .close →
      Derives .expr ts d → Derives .unary (o :: (ts ++ [c])) d
  | plus {o : LexerToken V} {ts : List (LexerToken V)} {d : ParserDag V} : o.op = .add →
      Derives .unary ts d → Derives .unary (o :: ts) d
  | minus {o : LexerToken V} {ts : List (LexerToken V)} {d : ParserDag V} : o.op = .sub →
      Derives .unary ts d → Derives .unary (o :: ts) (mkd .neg .null d)
  | unary {ts : List (LexerToken V)} {d : ParserDag V} : Derives .unary ts d → Derives .term ts d
  | mul {o : LexerToken V} {ts us : List (LexerToken V)} {l r : ParserDag V} : o.op = .mul →
      Derives .term ts l → Derives .unary us r → Derives .term (ts ++ o :: us) (mkd .mul l r)
  | div {o : LexerToken V} {ts us : List (LexerToken V)} {l r : ParserDag V} : o.op = .div →
      Derives .term ts l → Derives .unary us r → Derives .term (ts ++ o :: us) (mkd .div l r)
  | term {ts : List (LexerToken V)} {d : ParserDag V} : Derives .term ts d → Derives .expr ts d
  | add {o : LexerToken V} {ts us : List (LexerToken V)} {l r : ParserDag V} : o.op = .add →
      Derives .expr ts l → Derives .term us r → Derives .expr (ts ++ o :: us) (mkd .add l r)
  | sub {o : LexerToken V} {ts us : List (LexerToken V)} {l r : ParserDag V} : o.op = .sub →
      Derives .expr ts l → Derives .term us r → Derives .expr (ts ++ o :: us) (mkd .sub l r)

/-! ## The shape of a DAG -/

/-- VAL nodes have no children, NEG nodes a right child only, binary nodes both. -/
inductive ParserDag.Shape : ParserDag V → Prop
  | val (v : V) : Shape (.node .val v .null .null)
  | neg (v : V) {r : ParserDag V} : r.Shape → Shape (.node .neg v .null r)
  | binary {op : DagOp} (v : V) {l r : ParserDag V} : op ∈ [DagOp.mul, .div, .add, .sub] →
      l.Shape → r.Shape → Shape (.node op v l r)

theorem Derives.shape {n : Nonterminal} {ts : List (LexerToken V)} {d : ParserDag V} (h : Derives n ts d) :
    d.Shape := by
  induction h with
  | val _ => exact .val _
  | paren _ _ _ ih => exact ih
  | plus _ _ ih => exact ih
  | minus _ _ ih => exact .neg _ ih
  | unary _ ih => exact ih
  | mul _ _ _ ihl ihr => exact .binary _ (by simp) ihl ihr
  | div _ _ _ ihl ihr => exact .binary _ (by simp) ihl ihr
  | term _ ih => exact ih
  | add _ _ _ ihl ihr => exact .binary _ (by simp) ihl ihr
  | sub _ _ _ ihl ihr => exact .binary _ (by simp) ihl ihr

omit [Zero V] in
theorem ParserDag.Shape.ne_null {d : ParserDag V} (h : d.Shape) : d ≠ .null := by
  cases h <;> simp

theorem Derives.ne_nil {n : Nonterminal} {ts : List (LexerToken V)} {d : ParserDag V} (h : Derives n ts d) :
    ts ≠ [] := by
  induction h with
  | unary _ ih => exact ih
  | term _ ih => exact ih
  | _ => simp

/-! ## Operands and operators, each once -/

/-- What a DAG keeps of the text: the operands and the operators. -/
inductive Symbol (V : Type) where
  | operand (v : V)
  | operator (op : LexerOp)
  deriving DecidableEq, Repr

def DagOp.symbol (v : V) : DagOp → Symbol V
  | .none_ => .operator .sentinel
  | .val => .operand v
  | .neg => .operator .sub
  | .mul => .operator .mul
  | .div => .operator .div
  | .add => .operator .add
  | .sub => .operator .sub

/-- The nodes of a DAG, from left to right. -/
def ParserDag.inorder : ParserDag V → List (Symbol V)
  | .null => []
  | .node op v l r => l.inorder ++ op.symbol v :: r.inorder

/-- The operands and operators of a text, without parentheses and without the pluses
    that do not follow an operand (`after`: whether the token before ends an operand). -/
def spelled (after : Bool) : List (LexerToken V) → List (Symbol V)
  | [] => []
  | t :: ts =>
    match t.op with
    | .val => .operand t.val :: spelled true ts
    | .open_ => spelled false ts
    | .close => spelled true ts
    | .add => if after then .operator .add :: spelled false ts else spelled false ts
    | op => .operator op :: spelled false ts

theorem Derives.spelled_append {n : Nonterminal} {ts : List (LexerToken V)} {d : ParserDag V} (h : Derives n ts d)
    (rest : List (LexerToken V)) : spelled false (ts ++ rest) = d.inorder ++ spelled true rest := by
  induction h generalizing rest with
  | val ht => simp [spelled, ParserDag.inorder, DagOp.symbol, ht]
  | paren ho hc _ ih => simp [spelled, ho, ih, hc]
  | plus ho _ ih => simp [spelled, ho, ih]
  | minus ho _ ih => simp [spelled, ho, ih, mkd, ParserDag.inorder, DagOp.symbol]
  | unary _ ih => exact ih rest
  | mul ho _ _ ihl ihr => simp [List.append_assoc, ihl, spelled, ho, ihr, mkd, ParserDag.inorder, DagOp.symbol]
  | div ho _ _ ihl ihr => simp [List.append_assoc, ihl, spelled, ho, ihr, mkd, ParserDag.inorder, DagOp.symbol]
  | term _ ih => exact ih rest
  | add ho _ _ ihl ihr => simp [List.append_assoc, ihl, spelled, ho, ihr, mkd, ParserDag.inorder, DagOp.symbol]
  | sub ho _ _ ihl ihr => simp [List.append_assoc, ihl, spelled, ho, ihr, mkd, ParserDag.inorder, DagOp.symbol]

/-- A derivation's DAG holds the operands and operators of its text, in order. -/
theorem Derives.inorder_eq {n : Nonterminal} {ts : List (LexerToken V)} {d : ParserDag V} (h : Derives n ts d) :
    d.inorder = spelled false ts := by
  have := h.spelled_append []
  simpa [spelled] using this.symm

end Cs238p.Jit
