/-
  Cs238p.Jit.ParserProofs — the parser accepts its grammar (`Cs238p.Jit.Grammar`).

  `rest p` is what the parser has left to read. Every function of the descent is judged
  against its nonterminal:
  - soundness and termination (`Good`): with more fuel than tokens left it does not run
    out of fuel, and a DAG it answers derives from the tokens it consumed;
  - completeness (`Derives.parsed`): on tokens that derive from the nonterminal and are
    followed by no operator that would extend them, it consumes exactly these and
    answers their DAG.

  The loop with the stale `left` (`binaryLoop`) needs one fact: the call it makes on
  itself leaves no operator of its level (`Good` with `opOf`, `binaryLoop_done`), so the
  second iteration ends at once.
-/
import Mathlib.Algebra.Ring.Int.Defs
import Mathlib.Data.List.GetD
import Cs238p.Jit.Grammar

namespace Cs238p.Jit

variable {V : Type} [Zero V]

/-! ## The position of the parser -/

def rest (p : Parser V) : List (LexerToken V) := p.lexer.drop p.i

/-- The parser `n` tokens on. -/
def adv (p : Parser V) (n : Nat) : Parser V := { p with i := p.i + n }

omit [Zero V] in
@[simp] theorem rest_adv (p : Parser V) (n : Nat) : rest (adv p n) = (rest p).drop n := by
  simp [rest, adv, List.drop_drop]

omit [Zero V] in
@[simp] theorem adv_adv (p : Parser V) (m n : Nat) : adv (adv p m) n = adv p (m + n) := by
  simp [adv, Nat.add_assoc]

theorem next_eq (p : Parser V) : next p = (rest p).headD ⟨.sentinel, 0⟩ := by
  unfold next rest
  by_cases h : p.i < p.lexer.length
  · rw [List.getD_eq_getElem _ _ h, List.drop_eq_getElem_cons h]; rfl
  · rw [List.getD_eq_default _ _ (by omega), List.drop_eq_nil_of_le (by omega)]; rfl

theorem next_cons {p : Parser V} {t : LexerToken V} {ts : List (LexerToken V)} (h : rest p = t :: ts) :
    next p = t := by
  rw [next_eq, h]; rfl

omit [Zero V] in
theorem forward_cons {p : Parser V} {t : LexerToken V} {ts : List (LexerToken V)} (h : rest p = t :: ts) :
    forward p = adv p 1 := by
  unfold forward adv
  split
  · rfl
  · rename_i hn
    rw [rest, List.drop_eq_nil_of_le (by omega)] at h; cases h

/-- Only a token that is there carries an operator. -/
theorem cons_of_next {p : Parser V} (h : (next p).op ≠ .sentinel) : rest p = next p :: (rest p).drop 1 := by
  rw [next_eq] at h ⊢
  cases hr : rest p with
  | nil => rw [hr] at h; exact absurd rfl h
  | cons t ts => rfl

theorem match_iff {p : Parser V} {op : LexerOp} : match_ p op = true ↔ (next p).op = op := by
  unfold match_; rw [beq_iff_eq, eq_comm]

theorem match_eq_false {p : Parser V} {op : LexerOp} (h : (next p).op ≠ op) : match_ p op = false :=
  Bool.eq_false_iff.mpr fun e => h (match_iff.mp e)

omit [Zero V] in
@[simp] theorem adv_lexer (p : Parser V) (n : Nat) : (adv p n).lexer = p.lexer := rfl

omit [Zero V] in
theorem ParserDag.exists_node {d : ParserDag V} (h : d ≠ .null) : ∃ op v l r, d = .node op v l r := by
  cases d with
  | null => exact absurd rfl h
  | node op v l r => exact ⟨op, v, l, r, rfl⟩

/-! ## Soundness and termination -/

/-- An answer for a nonterminal at `p`: fuel is left (the one way to stop short is a name
    read past its table), and a DAG derives from the tokens between `p` and the parser
    left behind. -/
def Good (n : Nonterminal) (p : Parser V) : Answer V → Prop
  | .error e => ∃ i, e = .bounds i
  | .ok (d, q) => d = .null ∨ ∃ ts, rest p = ts ++ rest q ∧ Derives n ts d

theorem good_null {n : Nonterminal} {p q : Parser V} : Good n p (.ok (.null, q)) := Or.inl rfl

/-- `f` answers well wherever fewer than `b` tokens are left. -/
def GoodBelow (n : Nonterminal) (b : Nat) (f : Parser V → Answer V) : Prop :=
  ∀ p, (rest p).length < b → Good n p (f p)

omit [Zero V] in
theorem length_lt_of_split {p q : Parser V} {ts : List (LexerToken V)} (h : rest p = ts ++ rest q) (hne : ts ≠ []) :
    (rest q).length < (rest p).length := by
  have := List.length_pos_iff.mpr hne
  rw [h, List.length_append]; omega

theorem exprPrimary_good {f : Parser V → Answer V} {p : Parser V} (hf : GoodBelow .expr (rest p).length f) :
    Good .unary p (exprPrimary f p) := by
  unfold exprPrimary
  split
  · rename_i hv
    have hop := match_iff.mp hv
    have hr := cons_of_next (p := p) (by rw [hop]; simp)
    rw [forward_cons hr]
    refine Or.inr ⟨[next p], ?_, .val hop⟩
    rw [rest_adv]; exact hr
  split
  · rename_i ho
    have hop := match_iff.mp ho
    have hr := cons_of_next (p := p) (by rw [hop]; simp)
    have hlt : (rest (adv p 1)).length < (rest p).length := by rw [rest_adv]; rw [hr]; simp
    rw [forward_cons hr]
    have hg := hf _ hlt
    cases he : f (adv p 1) with
    | error e => rw [he] at hg; exact hg
    | ok a =>
      obtain ⟨d, q⟩ := a
      rw [he] at hg
      cases d with
      | null => exact good_null
      | node op v l r =>
        rcases hg with hn | ⟨ts, hts, hd⟩
        · cases hn
        simp only
        split
        · rename_i hc
          have hcl := match_iff.mp hc
          have hq := cons_of_next (p := q) (by rw [hcl]; simp)
          rw [forward_cons hq]
          refine Or.inr ⟨next p :: (ts ++ [next q]), ?_, .paren hop hcl hd⟩
          rw [hr, ← rest_adv, hts]
          conv => lhs; rw [hq]
          simp
        · exact good_null
  · exact good_null

theorem exprUnary_good {f : Parser V → Answer V} (fuel : Nat) {p : Parser V} (hp : (rest p).length < fuel)
    (hf : GoodBelow .expr (rest p).length f) : Good .unary p (exprUnary f fuel p) := by
  induction fuel generalizing p with
  | zero => omega
  | succ fuel ih =>
    -- a sign, then a unary
    have sign : ∀ (o : LexerOp), o ≠ .sentinel → (next p).op = o →
        forward p = adv p 1 ∧ rest p = next p :: rest (adv p 1) ∧ Good .unary (adv p 1)
          (exprUnary f fuel (adv p 1)) := by
      intro o ho hop
      have hr := cons_of_next (p := p) (by rw [hop]; exact ho)
      have hlt : (rest (adv p 1)).length + 1 = (rest p).length := by rw [rest_adv]; rw [hr]; simp
      exact ⟨forward_cons hr, by rw [rest_adv]; exact hr, ih (by omega) fun q hq => hf q (by omega)⟩
    unfold exprUnary
    split
    · rename_i ha
      have hop := match_iff.mp ha
      obtain ⟨hfw, hr, hg⟩ := sign .add (by simp) hop
      rw [hfw]
      cases he : exprUnary f fuel (adv p 1) with
      | error e => rw [he] at hg; exact hg
      | ok a =>
        obtain ⟨d, q⟩ := a
        rw [he] at hg
        cases d with
        | null => exact good_null
        | node op v l r =>
          rcases hg with hn | ⟨ts, hts, hd⟩
          · cases hn
          exact Or.inr ⟨next p :: ts, by rw [hr, hts]; rfl, .plus hop hd⟩
    split
    · rename_i hs
      have hop := match_iff.mp hs
      obtain ⟨hfw, hr, hg⟩ := sign .sub (by simp) hop
      rw [hfw]
      cases he : exprUnary f fuel (adv p 1) with
      | error e => rw [he] at hg; exact hg
      | ok a =>
        obtain ⟨d, q⟩ := a
        rw [he] at hg
        cases d with
        | null => exact good_null
        | node op v l r =>
          rcases hg with hn | ⟨ts, hts, hd⟩
          · cases hn
          exact Or.inr ⟨next p :: ts, by rw [hr, hts]; rfl, .minus hop hd⟩
    · exact exprPrimary_good hf

/-- A loop of the grammar: the chain nonterminal, its operand and its operators. -/
structure Level (V : Type) [Zero V] where
  chain : Nonterminal
  operand : Nonterminal
  opOf : LexerOp → Option DagOp
  sentinel : opOf .sentinel = none
  step : ∀ {o : LexerToken V} {ts us : List (LexerToken V)} {l r : ParserDag V} {op : DagOp}, opOf o.op = some op →
    Derives chain ts l → Derives operand us r → Derives chain (ts ++ o :: us) (mkd op l r)

def mulLevel : Level V where
  chain := .term
  operand := .unary
  opOf := mulOf
  sentinel := rfl
  step := by
    intro o ts us l r op h hl hr
    cases ho : o.op <;> rw [ho] at h <;> cases h
    · exact .mul ho hl hr
    · exact .div ho hl hr

def addLevel : Level V where
  chain := .expr
  operand := .term
  opOf := addOf
  sentinel := rfl
  step := by
    intro o ts us l r op h hl hr
    cases ho : o.op <;> rw [ho] at h <;> cases h
    · exact .add ho hl hr
    · exact .sub ho hl hr

theorem binaryLoop_done {opOf : LexerOp → Option DagOp} {tbl : List String} {operand : Parser V → Answer V} {fuel : Nat}
    {p : Parser V} (left dag : ParserDag V) (h : opOf (next p).op = none) (hf : fuel ≠ 0) :
    binaryLoop opOf tbl operand fuel p left dag = .ok (dag, p) := by
  obtain ⟨k, rfl⟩ := Nat.exists_eq_succ_of_ne_zero hf
  rw [binaryLoop, h]

/-- An answer of a loop entered with a DAG of `ts`: `Good`, and no operator of the level
    is left to read. -/
def GoodLoop (L : Level V) (ts : List (LexerToken V)) (p : Parser V) : Answer V → Prop
  | .error e => ∃ i, e = .bounds i
  | .ok (d, q) => d = .null ∨
      ∃ us, rest p = us ++ rest q ∧ Derives L.chain (ts ++ us) d ∧ L.opOf (next q).op = none

theorem binaryLoop_good (L : Level V) (tbl : List String) {operand : Parser V → Answer V} {b : Nat}
    (ho : GoodBelow L.operand b operand) (fuel : Nat) {p : Parser V} (hp : (rest p).length < fuel)
    (hb : (rest p).length ≤ b) {ts : List (LexerToken V)} {left : ParserDag V} (hl : Derives L.chain ts left) :
    GoodLoop L ts p (binaryLoop L.opOf tbl operand fuel p left left) := by
  induction fuel generalizing p ts left with
  | zero => omega
  | succ fuel ih =>
    unfold binaryLoop
    cases hop : L.opOf (next p).op with
    | none => exact Or.inr ⟨[], rfl, by simpa using hl, hop⟩
    | some op =>
      have hr := cons_of_next (p := p) (fun e => by rw [e, L.sentinel] at hop; cases hop)
      have hlt : (rest (adv p 1)).length + 1 = (rest p).length := by rw [rest_adv]; rw [hr]; simp
      rw [forward_cons hr]
      have hg := ho (adv p 1) (by omega)
      simp only
      cases he : operand (adv p 1) with
      | error e => rw [he] at hg; exact hg
      | ok a =>
        obtain ⟨d, q⟩ := a
        rw [he] at hg
        cases d with
        | null =>
          simp only
          split
          · exact Or.inl rfl
          · simp [GoodLoop]
        | node op' v l r =>
          rcases hg with hn | ⟨us, hus, hd⟩
          · cases hn
          have hq := length_lt_of_split hus hd.ne_nil
          have hrec := ih (p := q) (by omega) (by omega) (L.step hop hl hd)
          simp only
          cases he' : binaryLoop L.opOf tbl operand fuel q (mkd op left (.node op' v l r))
              (mkd op left (.node op' v l r)) with
          | error e => rw [he'] at hrec; exact hrec
          | ok a =>
            obtain ⟨d', q'⟩ := a
            rw [he'] at hrec
            cases d' with
            | null => exact Or.inl rfl
            | node op'' v' l' r' =>
              rcases hrec with hn | ⟨ws, hws, hd', hnone⟩
              · cases hn
              -- the second iteration: nothing of this level is left
              simp only
              rw [binaryLoop_done _ _ hnone (by omega)]
              refine Or.inr ⟨next p :: us ++ ws, ?_, by simpa using hd', hnone⟩
              rw [hr, ← rest_adv, hus, hws]; simp

/-- A chain: an operand, then the loop. -/
theorem chain_good (L : Level V) (tbl : List String) {operand : Parser V → Answer V} {fuel : Nat} {p : Parser V}
    (hp : (rest p).length < fuel)
      (hfirst : ∀ {ts : List (LexerToken V)} {d : ParserDag V}, Derives L.operand ts d → Derives L.chain ts d)
    (ho : GoodBelow L.operand fuel operand) :
    Good L.chain p (match operand p with
      | .error e => .error e
      | .ok (.null, p) => .ok (.null, p)
      | .ok (dag, p) => binaryLoop L.opOf tbl operand fuel p dag dag) := by
  have hg := ho p hp
  cases he : operand p with
  | error e => rw [he] at hg; exact hg
  | ok a =>
    obtain ⟨d, q⟩ := a
    rw [he] at hg
    cases d with
    | null => exact good_null
    | node op v l r =>
      rcases hg with hn | ⟨ts, hts, hd⟩
      · cases hn
      have hq := length_lt_of_split hts hd.ne_nil
      have hl := binaryLoop_good L tbl ho fuel (p := q) (by omega) (by omega) (hfirst hd)
      simp only
      cases he' : binaryLoop L.opOf tbl operand fuel q (.node op v l r) (.node op v l r) with
      | error e => rw [he'] at hl; exact hl
      | ok a =>
        obtain ⟨d', q'⟩ := a
        rw [he'] at hl
        rcases hl with hn | ⟨us, hus, hd', -⟩
        · exact Or.inl hn
        · exact Or.inr ⟨ts ++ us, by rw [hts, hus, List.append_assoc], hd'⟩

theorem exprUnary_goodBelow {f : Parser V → Answer V} {fuel : Nat} (hf : GoodBelow .expr (fuel - 1) f) :
    GoodBelow .unary fuel (exprUnary f fuel) :=
  fun _ hq => exprUnary_good fuel hq fun r hr => hf r (by omega)

theorem exprMultiplicative_good {f : Parser V → Answer V} {fuel : Nat} {p : Parser V} (hp : (rest p).length < fuel)
    (hf : GoodBelow .expr (fuel - 1) f) : Good .term p (exprMultiplicative f fuel p) :=
  chain_good mulLevel ["*", "/"] hp .unary (exprUnary_goodBelow hf)

theorem exprAdditive_good {f : Parser V → Answer V} {fuel : Nat} {p : Parser V} (hp : (rest p).length < fuel)
    (hf : GoodBelow .expr (fuel - 1) f) : Good .expr p (exprAdditive f fuel p) :=
  chain_good addLevel ["+", "-"] hp .term fun _ hq => exprMultiplicative_good hq hf

theorem expr_good (fuel : Nat) : GoodBelow (V := V) .expr fuel (expr fuel) := by
  induction fuel with
  | zero => intro p hp; omega
  | succ fuel ih => intro p hp; exact exprAdditive_good hp ih

/-! ## Completeness -/

/-- With enough fuel, the loop at `q` with `d` built so far ends in `d'`, leaving `q'`. -/
def Loops (opOf : LexerOp → Option DagOp) (tbl : List String) (operand : Parser V → Answer V) (q : Parser V)
    (d d' : ParserDag V) (q' : Parser V) : Prop :=
  ∀ fuel, (rest q).length < fuel → binaryLoop opOf tbl operand fuel q d d = .ok (d', q')

theorem loops_done {opOf : LexerOp → Option DagOp} {tbl : List String} {operand : Parser V → Answer V} {q : Parser V}
    {d : ParserDag V} (h : opOf (next q).op = none) : Loops opOf tbl operand q d d q :=
  fun _ hf => binaryLoop_done d d h (by omega)

/-- One more operator and operand before a loop that ends in `d'`. -/
theorem loops_step {opOf : LexerOp → Option DagOp} {tbl : List String} {operand : Parser V → Answer V} {q q' : Parser V}
    {o : LexerToken V} {us r : List (LexerToken V)} {op : DagOp} {l x d' : ParserDag V} (hq : rest q = o :: us ++ r)
    (hop : opOf o.op = some op) (hx : x ≠ .null) (ho : operand (adv q 1) = .ok (x, adv q (1 + us.length)))
    (hd' : d' ≠ .null) (hend : opOf (next q').op = none)
    (h : Loops opOf tbl operand (adv q (1 + us.length)) (mkd op l x) d' q') : Loops opOf tbl operand q l d' q' := by
  intro fuel hf
  cases fuel with
  | zero => omega
  | succ fuel =>
    have hlen : (rest (adv q (1 + us.length))).length < fuel := by
      rw [rest_adv, hq, List.length_drop]; rw [hq] at hf; simp at hf ⊢; omega
    obtain ⟨_, _, _, _, rfl⟩ := ParserDag.exists_node hx
    obtain ⟨_, _, _, _, rfl⟩ := ParserDag.exists_node hd'
    rw [binaryLoop, next_cons hq, hop]
    simp only
    rw [forward_cons hq, ho]
    simp only
    rw [h fuel hlen]
    exact binaryLoop_done _ _ hend (by omega)

/-- What is complete about the parser of each nonterminal: on tokens `ts` with DAG `d`,
    followed by `r`, it consumes `ts` and answers `d`. A chain parser goes on with its
    loop, so what it answers is what the loop makes of `d`. -/
def Parsed : Nonterminal → List (LexerToken V) → ParserDag V → Prop
  | .unary, ts, d => ∀ (p : Parser V) (r : List (LexerToken V)) (k fuel : Nat), rest p = ts ++ r →
      (rest p).length ≤ k → (rest p).length < fuel → exprUnary (expr k) fuel p = .ok (d, adv p ts.length)
  | .term, ts, d => ∀ (p q' : Parser V) (r : List (LexerToken V)) (k fuel : Nat) (d' : ParserDag V), rest p = ts ++ r →
      (rest p).length ≤ k → (rest p).length < fuel → d' ≠ .null → mulOf (next q').op = none →
      Loops mulOf ["*", "/"] (exprUnary (expr k) fuel) (adv p ts.length) d d' q' →
      exprMultiplicative (expr k) fuel p = .ok (d', q')
  | .expr, ts, d => ∀ (p q' : Parser V) (r : List (LexerToken V)) (k fuel : Nat) (d' : ParserDag V), rest p = ts ++ r →
      (rest p).length ≤ k → (rest p).length < fuel → d' ≠ .null → addOf (next q').op = none →
      mulOf (next (adv p ts.length)).op = none →
      Loops addOf ["+", "-"] (exprMultiplicative (expr k) fuel) (adv p ts.length) d d' q' →
      exprAdditive (expr k) fuel p = .ok (d', q')

/-- A term that no operator of its level extends is consumed and answered. -/
theorem term_parsed {ts : List (LexerToken V)} {d : ParserDag V} (h : Parsed .term ts d) (hd : d ≠ .null) {p : Parser V}
    {r : List (LexerToken V)} {k fuel : Nat} (hp : rest p = ts ++ r) (hk : (rest p).length ≤ k)
    (hf : (rest p).length < fuel) (hend : mulOf (next (adv p ts.length)).op = none) :
    exprMultiplicative (expr k) fuel p = .ok (d, adv p ts.length) :=
  h p _ r k fuel d hp hk hf hd hend (loops_done hend)

/-- An expression that no operator extends is consumed and answered. -/
theorem expr_parsed {ts : List (LexerToken V)} {d : ParserDag V} (h : Parsed .expr ts d) (hd : d ≠ .null) {p : Parser V}
    {r : List (LexerToken V)} {k : Nat} (hp : rest p = ts ++ r) (hk : (rest p).length < k)
    (hmul : mulOf (next (adv p ts.length)).op = none) (hadd : addOf (next (adv p ts.length)).op = none) :
    expr k p = .ok (d, adv p ts.length) := by
  cases k with
  | zero => omega
  | succ k => exact h p _ r k (k + 1) d hp (by omega) hk hd hadd hmul (loops_done hadd)

theorem next_adv {p : Parser V} {ts r : List (LexerToken V)} (hp : rest p = ts ++ r) :
    next (adv p ts.length) = r.headD ⟨.sentinel, 0⟩ := by
  rw [next_eq, rest_adv, hp, List.drop_left]

/-- Without a sign. -/
theorem exprUnary_eq_primary {f : Parser V → Answer V} {fuel : Nat} {p : Parser V}
    (ha : match_ p .add = false) (hs : match_ p .sub = false) : exprUnary f (fuel + 1) p = exprPrimary f p := by
  rw [exprUnary, ha, hs]
  simp only [Bool.false_eq_true, if_false]

theorem exprPrimary_paren {p : Parser V} {o c : LexerToken V} {ts r : List (LexerToken V)} {d : ParserDag V} {k : Nat}
    (ho : o.op = .open_) (hc : c.op = .close) (hp : rest p = o :: (ts ++ c :: r)) (hd : d ≠ .null)
    (h : expr k (adv p 1) = .ok (d, adv (adv p 1) ts.length)) :
    exprPrimary (expr k) p = .ok (d, adv p (ts.length + 2)) := by
  have hn := next_cons hp
  have hv : match_ p .val = false := by
    exact match_eq_false (by rw [hn, ho]; simp)
  have hq : rest (adv (adv p 1) ts.length) = c :: r := by rw [rest_adv, rest_adv, hp]; simp
  obtain ⟨_, _, _, _, rfl⟩ := ParserDag.exists_node hd
  unfold exprPrimary
  rw [if_neg (by rw [hv]; simp), if_pos (match_iff.mpr (by rw [hn, ho])), forward_cons hp, h]
  simp only
  rw [if_pos (match_iff.mpr (by rw [next_cons hq, hc])), forward_cons hq, adv_adv, adv_adv]
  have : 1 + (ts.length + 1) = ts.length + 2 := by omega
  rw [this]

omit [Zero V] in
/-- What is left after a chain, and after the operator behind it. -/
theorem rest_operand {p : Parser V} {o : LexerToken V} {ts us r : List (LexerToken V)}
    (hp : rest p = ts ++ o :: us ++ r) : rest (adv p ts.length) = o :: us ++ r ∧
      rest (adv (adv p ts.length) 1) = us ++ r ∧ (rest (adv (adv p ts.length) 1)).length ≤ (rest p).length := by
  have hp' : rest p = ts ++ (o :: us ++ r) := by rw [hp]; simp
  have hq : rest (adv p ts.length) = o :: us ++ r := by rw [rest_adv, hp', List.drop_left]
  have h1 : rest (adv (adv p ts.length) 1) = us ++ r := by rw [rest_adv, hq]; rfl
  refine ⟨hq, h1, ?_⟩
  rw [h1, hp]
  simp
  omega

/-- The operand is parsed where the loop reads it. -/
theorem unary_operand {o : LexerToken V} {ts us r : List (LexerToken V)} {x : ParserDag V} {p : Parser V} {k fuel : Nat}
    (h : Parsed .unary us x) (hp : rest p = ts ++ o :: us ++ r) (hk : (rest p).length ≤ k)
    (hf : (rest p).length < fuel) :
    exprUnary (expr k) fuel (adv (adv p ts.length) 1) = .ok (x, adv (adv p ts.length) (1 + us.length)) := by
  obtain ⟨-, h1, hle⟩ := rest_operand hp
  rw [h _ r k fuel h1 (by omega) (by omega), adv_adv]

theorem term_operand {o : LexerToken V} {ts us r : List (LexerToken V)} {x : ParserDag V} {p : Parser V} {k fuel : Nat}
    (h : Parsed .term us x) (hx : x ≠ .null) (hp : rest p = ts ++ o :: us ++ r) (hk : (rest p).length ≤ k)
    (hf : (rest p).length < fuel) (hmul : mulOf (next (adv p (ts ++ o :: us).length)).op = none) :
    exprMultiplicative (expr k) fuel (adv (adv p ts.length) 1) =
      .ok (x, adv (adv p ts.length) (1 + us.length)) := by
  obtain ⟨-, h1, hle⟩ := rest_operand hp
  have hn : adv (adv (adv p ts.length) 1) us.length = adv p (ts ++ o :: us).length := by
    rw [adv_adv, adv_adv, List.length_append, List.length_cons]; congr 1; omega
  rw [term_parsed (k := k) h hx h1 (by omega) (show _ < fuel by omega) (by rw [hn]; exact hmul), adv_adv]

/-- `+` and `-` end the term before them. -/
theorem mulOf_of_addOf {o : LexerOp} {op : DagOp} (h : addOf o = some op) : mulOf o = none := by
  cases o <;> first | rfl | cases h

/-- A chain one operator and operand longer. -/
theorem term_step {o : LexerToken V} {ts us : List (LexerToken V)} {l x : ParserDag V} {op : DagOp}
    (hop : mulOf o.op = some op) (hx : x ≠ .null) (ihl : Parsed .term ts l) (ihr : Parsed .unary us x) :
    Parsed .term (ts ++ o :: us) (mkd op l x) := by
  intro p q' r k fuel d' hp hk hf hd' hend hloop
  have hp' : rest p = ts ++ (o :: us ++ r) := by rw [hp]; simp
  obtain ⟨hq, -, -⟩ := rest_operand hp
  refine ihl p q' _ k fuel d' hp' hk hf hd' hend (loops_step hq hop hx (unary_operand ihr hp hk hf) hd' hend ?_)
  simpa [Nat.add_comm, Nat.add_left_comm] using hloop

theorem expr_step {o : LexerToken V} {ts us : List (LexerToken V)} {l x : ParserDag V} {op : DagOp}
    (hop : addOf o.op = some op) (hx : x ≠ .null) (ihl : Parsed .expr ts l) (ihr : Parsed .term us x) :
    Parsed .expr (ts ++ o :: us) (mkd op l x) := by
  intro p q' r k fuel d' hp hk hf hd' hend hmul hloop
  have hp' : rest p = ts ++ (o :: us ++ r) := by rw [hp]; simp
  obtain ⟨hq, -, -⟩ := rest_operand hp
  have ho : mulOf (next (adv p ts.length)).op = none := by
    rw [next_cons hq]
    exact mulOf_of_addOf hop
  refine ihl p q' _ k fuel d' hp' hk hf hd' hend ho
    (loops_step hq hop hx (term_operand ihr hx hp hk hf hmul) hd' hend ?_)
  simpa [Nat.add_comm, Nat.add_left_comm] using hloop

theorem Derives.parsed {n : Nonterminal} {ts : List (LexerToken V)} {d : ParserDag V} (h : Derives n ts d) :
    Parsed n ts d := by
  induction h with
  | @val t ht =>
    intro p r k fuel hp _ hf
    have hn : next p = t := next_cons hp
    have hno : ∀ op, op ≠ LexerOp.val → match_ p op = false := by
      intro op hop
      exact match_eq_false (by rw [hn, ht]; exact hop.symm)
    cases fuel with
    | zero => omega
    | succ fuel =>
      rw [exprUnary_eq_primary (hno .add (by simp)) (hno .sub (by simp)), exprPrimary,
        if_pos (match_iff.mpr (by rw [hn, ht])), hn, forward_cons hp]; rfl
  | @paren o c ts d ho hc hd ih =>
    intro p r k fuel hp hk hf
    have hp' : rest p = o :: (ts ++ c :: r) := by rw [hp]; simp
    have hn : next p = o := next_cons hp'
    have hno : ∀ op, op ≠ LexerOp.open_ → match_ p op = false := by
      intro op hop
      exact match_eq_false (by rw [hn, ho]; exact hop.symm)
    have h1 : rest (adv p 1) = ts ++ c :: r := by rw [rest_adv, hp']; rfl
    have hlt : (rest (adv p 1)).length < k := by rw [h1]; rw [hp'] at hk; simp at hk ⊢; omega
    have hcl : next (adv (adv p 1) ts.length) = c := by rw [next_adv h1]; rfl
    have hin := expr_parsed ih hd.shape.ne_null h1 hlt (by rw [hcl, hc]; rfl) (by rw [hcl, hc]; rfl)
    cases fuel with
    | zero => omega
    | succ fuel =>
      rw [exprUnary_eq_primary (hno .add (by simp)) (hno .sub (by simp)),
        exprPrimary_paren ho hc hp' hd.shape.ne_null hin]
      simp
  | @plus o ts d ho hd ih =>
    intro p r k fuel hp hk hf
    have h1 : rest (adv p 1) = ts ++ r := by rw [rest_adv, hp]; rfl
    have hlen : (rest (adv p 1)).length + 1 = (rest p).length := by rw [h1, hp]; simp
    cases fuel with
    | zero => omega
    | succ fuel =>
      have hin := ih (adv p 1) r k fuel h1 (by omega) (by omega)
      obtain ⟨_, _, _, _, rfl⟩ := ParserDag.exists_node hd.shape.ne_null
      rw [exprUnary, if_pos (match_iff.mpr (by rw [next_cons hp, ho])), forward_cons hp, hin, adv_adv]
      simp [Nat.add_comm]
  | @minus o ts d ho hd ih =>
    intro p r k fuel hp hk hf
    have h1 : rest (adv p 1) = ts ++ r := by rw [rest_adv, hp]; rfl
    have hlen : (rest (adv p 1)).length + 1 = (rest p).length := by rw [h1, hp]; simp
    have hno : match_ p .add = false := match_eq_false (by rw [next_cons hp, ho]; simp)
    cases fuel with
    | zero => omega
    | succ fuel =>
      have hin := ih (adv p 1) r k fuel h1 (by omega) (by omega)
      obtain ⟨_, _, _, _, rfl⟩ := ParserDag.exists_node hd.shape.ne_null
      rw [exprUnary, hno]
      simp only [Bool.false_eq_true, if_false]
      rw [if_pos (match_iff.mpr (by rw [next_cons hp, ho])), forward_cons hp, hin, adv_adv]
      simp [Nat.add_comm]
  | @unary ts d hd ih =>
    intro p q' r k fuel d' hp hk hf hd' hend hloop
    have hq := ih p r k fuel hp hk hf
    have hle : (rest (adv p ts.length)).length < fuel := by
      rw [rest_adv, List.length_drop]; exact Nat.lt_of_le_of_lt (Nat.sub_le _ _) hf
    obtain ⟨_, _, _, _, rfl⟩ := ParserDag.exists_node hd.shape.ne_null
    rw [exprMultiplicative, hq]
    exact hloop fuel hle
  | mul ho _ hr ihl ihr => exact term_step (by rw [ho]; rfl) hr.shape.ne_null ihl ihr
  | div ho _ hr ihl ihr => exact term_step (by rw [ho]; rfl) hr.shape.ne_null ihl ihr
  | @term ts d hd ih =>
    intro p q' r k fuel d' hp hk hf hd' hend hmul hloop
    have hq := term_parsed ih hd.shape.ne_null hp hk hf hmul
    have hle : (rest (adv p ts.length)).length < fuel := by
      rw [rest_adv, List.length_drop]; exact Nat.lt_of_le_of_lt (Nat.sub_le _ _) hf
    obtain ⟨_, _, _, _, rfl⟩ := ParserDag.exists_node hd.shape.ne_null
    rw [exprAdditive, hq]
    exact hloop fuel hle
  | add ho _ hr ihl ihr => exact expr_step (by rw [ho]; rfl) hr.shape.ne_null ihl ihr
  | sub ho _ hr ihl ihr => exact expr_step (by rw [ho]; rfl) hr.shape.ne_null ihl ihr

/-! ## `parser_open` -/

omit [Zero V] in
theorem rest_start (ts : List (LexerToken V)) : rest (⟨false, 0, ts, []⟩ : Parser V) = ts := rfl

/-- Among real tokens the end marker is read at the end only. -/
theorem rest_nil_of_sentinel {p : Parser V} (hp : ∀ t ∈ rest p, t.op ≠ .sentinel) (h : (next p).op = .sentinel) :
    rest p = [] := by
  cases hr : rest p with
  | nil => rfl
  | cons t ts => rw [next_cons hr] at h; exact absurd h (hp t (by rw [hr]; exact List.mem_cons_self ..))

/-- `top` ends; a DAG it answers derives from the whole token list. -/
theorem top_good {ts : List (LexerToken V)} (hts : ∀ t ∈ ts, t.op ≠ .sentinel) {fuel : Nat} (hf : ts.length < fuel) :
    match top fuel ⟨false, 0, ts, []⟩ with
    | .error e => ∃ i, e = .bounds i
    | .ok (d, _) => d = .null ∨ Derives .expr ts d := by
  have hg := expr_good fuel ⟨false, 0, ts, []⟩ (by rw [rest_start]; exact hf)
  unfold top
  cases he : expr fuel ⟨false, 0, ts, []⟩ with
  | error e => rw [he] at hg; exact hg
  | ok a =>
    obtain ⟨d, q⟩ := a
    rw [he] at hg
    cases d with
    | null => exact Or.inl rfl
    | node op v l r =>
      rcases hg with hn | ⟨us, hus, hd⟩
      · cases hn
      rw [rest_start] at hus
      simp only
      by_cases hm : match_ q .sentinel = true
      · have hq := rest_nil_of_sentinel (p := q) (fun t ht => hts t (by rw [hus]; exact List.mem_append_right _ ht))
          (match_iff.mp hm)
        rw [hq, List.append_nil] at hus
        rw [if_pos hm, hus]
        exact Or.inr hd
      · rw [if_neg hm]; exact Or.inl rfl

theorem top_complete {ts : List (LexerToken V)} {d : ParserDag V} (h : Derives .expr ts d) {fuel : Nat}
    (hf : ts.length < fuel) : top fuel ⟨false, 0, ts, []⟩ = .ok (d, adv ⟨false, 0, ts, []⟩ ts.length) := by
  have hp : rest (⟨false, 0, ts, []⟩ : Parser V) = ts ++ [] := by rw [rest_start, List.append_nil]
  have hn := next_adv hp
  have he := expr_parsed (k := fuel) h.parsed h.shape.ne_null hp (by rw [rest_start]; exact hf)
    (by rw [hn]; rfl) (by rw [hn]; rfl)
  obtain ⟨_, _, _, _, rfl⟩ := ParserDag.exists_node h.shape.ne_null
  unfold top
  rw [he]
  simp only
  rw [if_pos (match_iff.mpr (by rw [hn]; rfl))]

/-- What `parser_open` does once the lexer has answered. -/
theorem parserOpen_cases (strtod : List Char → V × Nat) {s : List Char} {lexer : Lexer V}
    (hlex : lexerOpen strtod s = .ok (some lexer)) :
    (∃ d err, parserOpen strtod s = .ok (d, err) ∧ (d = .null ∨ Derives .expr lexer.tokens d)) ∨
      ∃ i, parserOpen strtod s = .error (.bounds i) := by
  have hok := lexerOpen_ok strtod hlex
  unfold parserOpen
  rw [hlex]
  simp only
  by_cases h0 : lexer.size = 0
  · rw [if_pos h0]; exact Or.inl ⟨_, _, rfl, Or.inl rfl⟩
  · rw [if_neg h0]
    have hg := top_good hok.ops (show _ < lexer.size + 1 by rw [hok.size_eq]; exact Nat.lt_succ_self _)
    cases he : top (lexer.size + 1) ⟨false, 0, lexer.tokens, []⟩ with
    | error e =>
      rw [he] at hg
      obtain ⟨i, rfl⟩ := hg
      exact Or.inr ⟨i, rfl⟩
    | ok a =>
      obtain ⟨d, q⟩ := a
      rw [he] at hg
      cases d with
      | null => exact Or.inl ⟨_, _, rfl, Or.inl rfl⟩
      | node op v l r => exact Or.inl ⟨_, _, rfl, hg⟩

theorem parserOpen_complete (strtod : List Char → V × Nat) {s : List Char} {lexer : Lexer V}
    (hlex : lexerOpen strtod s = .ok (some lexer)) {d : ParserDag V} (h : Derives .expr lexer.tokens d) :
    parserOpen strtod s = .ok (d, []) := by
  have hok := lexerOpen_ok strtod hlex
  have h0 : lexer.size ≠ 0 := by
    rw [hok.size_eq]; exact Nat.ne_of_gt (List.length_pos_iff.mpr h.ne_nil)
  have hq := top_complete h (show _ < lexer.size + 1 by rw [hok.size_eq]; exact Nat.lt_succ_self _)
  obtain ⟨_, _, _, _, rfl⟩ := ParserDag.exists_node h.shape.ne_null
  unfold parserOpen
  rw [hlex]
  simp only
  rw [if_neg h0, hq]
  rfl

/-- The parser accepts exactly its grammar. On every token list of the lexer the descent
    ends: it returns (or, reporting a missing operand of `+` or `-`, reads past its table
    of names); it returns a DAG iff the whole list derives from `expr`, the DAG is the one
    of the derivation, it has the shape of the code's nodes, and from left to right it
    holds every operand and operator of the text once. -/
theorem parserOpen_iff_derives (strtod : List Char → V × Nat) {s : List Char} {lexer : Lexer V}
    (hlex : lexerOpen strtod s = .ok (some lexer)) :
    ((∃ r, parserOpen strtod s = .ok r) ∨ ∃ i, parserOpen strtod s = .error (.bounds i)) ∧
    (∀ d, d ≠ .null → ((∃ err, parserOpen strtod s = .ok (d, err)) ↔ Derives .expr lexer.tokens d)) ∧
    ∀ d, Derives .expr lexer.tokens d →
      d.Shape ∧ d.inorder = spelled false lexer.tokens ∧ ∀ d', Derives .expr lexer.tokens d' → d' = d := by
  refine ⟨?_, fun d hd => ⟨?_, fun h => ⟨[], parserOpen_complete strtod hlex h⟩⟩, fun d hd =>
    ⟨hd.shape, hd.inorder_eq, ?_⟩⟩
  · rcases parserOpen_cases strtod hlex with ⟨d, err, h, -⟩ | h
    · exact Or.inl ⟨_, h⟩
    · exact Or.inr h
  · intro hh
    obtain ⟨err, h⟩ := hh
    rcases parserOpen_cases strtod hlex with ⟨d', err', h', hd'⟩ | ⟨i, h'⟩
    · rw [h] at h'; cases h'
      rcases hd' with hn | hd'
      · exact absurd hn hd
      · exact hd'
    · rw [h] at h'; cases h'
  · intro d' hd'
    -- the parser is a function: two derivations have the DAG it answers
    have h := parserOpen_complete strtod hlex hd
    have h' := parserOpen_complete strtod hlex hd'
    rw [h] at h'; cases h'; rfl

/-- `strtod` on a text whose numbers are single digits. -/
def strtodDigit : List Char → Int × Nat
  | [] => (0, 0)
  | c :: _ => if c.isDigit then ((c.toNat : Int) - 48, 1) else (0, 0)

theorem lexer_two_times_seven : lexerOpen strtodDigit ['2', '*', '7'] =
    .ok (some ⟨3, [⟨.val, 2⟩, ⟨.mul, 0⟩, ⟨.val, 7⟩], 100⟩) := by
  simp [lexerOpen, tokenize, operator, isspace, strtodDigit, mktoken]

theorem parserOpen_iff_derives_two_times_seven :
    (∃ err, parserOpen strtodDigit ['2', '*', '7'] =
      .ok (mkd .mul (.node .val 2 .null .null) (.node .val 7 .null .null), err)) ↔
    Derives .expr [⟨.val, 2⟩, ⟨.mul, 0⟩, ⟨.val, 7⟩]
      (mkd .mul (.node .val (2 : Int) .null .null) (.node .val 7 .null .null)) :=
  (parserOpen_iff_derives strtodDigit lexer_two_times_seven).2.1 _ (by simp [mkd])

end Cs238p.Jit
