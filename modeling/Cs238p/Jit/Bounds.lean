/-
  Cs238p.Jit.Bounds — which token lists the parser rejects without reading past its tables of
  operator names.

  The table of `expr_additive_` is indexed by `dag->op - PARSER_DAG_MUL`, which is 2 or 3 for
  its operators, and it has two names. It is read when an operand of `+` or `-` is missing or
  malformed, so "1+" is not rejected: the program reads past the table
  (`a_missing_operand_reads_past_the_table`).

  Proved, of every token list: the accesses are in bounds, and a list that derives no
  expression is reported and rejected, iff wherever a `+` or `-` follows an expression a term
  follows it (`rejecting_is_safe_iff`).
-/
import Cs238p.Jit.ParserProofs

namespace Cs238p.Jit

variable {V : Type} [Zero V]

/-! ## The condition -/

/-- A term begins the tokens, and no operator goes on with it. -/
def TermAt (ts : List (LexerToken V)) : Prop :=
  ∃ us r d, ts = us ++ r ∧ Derives .term us d ∧ mulOf (r.headD ⟨.sentinel, 0⟩).op = none

/-- Read from the left, the tokens come to a `+` or `-` after an expression, and no term
    follows. -/
inductive BadOperand : Nonterminal → List (LexerToken V) → Prop
  | here {o : LexerToken V} {ts r : List (LexerToken V)} {d : ParserDag V} : Derives .expr ts d →
      addOf o.op ≠ none → ¬ TermAt r → BadOperand .expr (ts ++ o :: r)
  | term {ts : List (LexerToken V)} : BadOperand .term ts → BadOperand .expr ts
  | factor {o : LexerToken V} {ts r : List (LexerToken V)} {d : ParserDag V} : Derives .term ts d →
      mulOf o.op ≠ none → BadOperand .unary r → BadOperand .term (ts ++ o :: r)
  | unary {ts : List (LexerToken V)} : BadOperand .unary ts → BadOperand .term ts
  | sign {o : LexerToken V} {r : List (LexerToken V)} : o.op = .add ∨ o.op = .sub →
      BadOperand .unary r → BadOperand .unary (o :: r)
  | paren {o : LexerToken V} {r : List (LexerToken V)} : o.op = .open_ → BadOperand .expr r →
      BadOperand .unary (o :: r)

/-! ## An error comes from a bad operand -/

/-- Below `b` tokens, `f` stops at a bad operand only. -/
def BadBelow (n : Nonterminal) (b : Nat) (f : Parser V → Answer V) : Prop :=
  ∀ p, (rest p).length < b → ∀ e, f p = .error e → BadOperand n (rest p)

variable {f operand : Parser V → Answer V} {p q : Parser V} {e : Stop} {fuel b k : Nat} {d l x : ParserDag V}
  {ts us r : List (LexerToken V)} {o : LexerToken V} {n : Nonterminal} {tbl : List String}
  {opOf : LexerOp → Option DagOp} {next_ : Parser V → Answer V}

omit [Zero V] in
theorem node_ne_null {op : DagOp} {v : V} : ParserDag.node op v l x ≠ .null := fun h => by cases h

theorem exprPrimary_bad (hf : BadBelow .expr (rest p).length f) (h : exprPrimary f p = .error e) :
    BadOperand .unary (rest p) := by
  unfold exprPrimary at h
  split at h
  · cases h
  split at h
  · rename_i ho
    have hop := match_iff.mp ho
    have hr := cons_of_next (p := p) (by rw [hop]; simp)
    have hlt : (rest (adv p 1)).length < (rest p).length := by rw [rest_adv]; rw [hr]; simp
    rw [forward_cons hr] at h
    cases he : f (adv p 1) with
    | error e' =>
      have hbad := hf _ hlt e' he
      rw [rest_adv] at hbad
      rw [hr]
      exact .paren hop hbad
    | ok a =>
      obtain ⟨d, q⟩ := a
      rw [he] at h
      cases d with
      | null => cases h
      | node op v l r =>
        simp only at h
        split at h <;> cases h
  · cases h

theorem exprUnary_bad (fuel : Nat) (hp : (rest p).length < fuel) (hf : BadBelow .expr (rest p).length f)
    (h : exprUnary f fuel p = .error e) : BadOperand .unary (rest p) := by
  induction fuel generalizing p e with
  | zero => exact absurd hp (Nat.not_lt_zero _)
  | succ fuel ih =>
    -- after a sign
    have sign : (next p).op = .add ∨ (next p).op = .sub → ∀ e', exprUnary f fuel (forward p) = .error e' →
        BadOperand .unary (rest p) := by
      intro hop e' he
      have hr := cons_of_next (p := p) (by rcases hop with hop | hop <;> rw [hop] <;> simp)
      have hlt : (rest (adv p 1)).length + 1 = (rest p).length := by rw [rest_adv]; rw [hr]; simp
      rw [forward_cons hr] at he
      have hbad := ih (by omega) (fun q hq => hf q (by omega)) he
      rw [rest_adv] at hbad
      rw [hr]
      exact .sign hop hbad
    unfold exprUnary at h
    split at h
    · rename_i ha
      cases he : exprUnary f fuel (forward p) with
      | error e' => exact sign (Or.inl (match_iff.mp ha)) e' he
      | ok a =>
        obtain ⟨d, q⟩ := a
        rw [he] at h
        cases d <;> cases h
    split at h
    · rename_i hs
      cases he : exprUnary f fuel (forward p) with
      | error e' => exact sign (Or.inr (match_iff.mp hs)) e' he
      | ok a =>
        obtain ⟨d, q⟩ := a
        rw [he] at h
        cases d <;> cases h
    · exact exprPrimary_bad hf h

/-- Where a loop stops: at an operand that stops, or at one that is not there when the
    operator's name is past the table. -/
theorem binaryLoop_bad (L : Level V) (ho : GoodBelow L.operand b operand) (fuel : Nat) (hp : (rest p).length < fuel)
    (hb : (rest p).length ≤ b) (hl : Derives L.chain ts l) (h : binaryLoop L.opOf tbl operand fuel p l l = .error e) :
    ∃ us d o op q, Derives L.chain us d ∧ L.opOf o.op = some op ∧ (rest q).length < (rest p).length ∧
      ts ++ rest p = us ++ o :: rest q ∧ ((∃ e, operand q = .error e) ∨
        (∃ q', operand q = .ok (.null, q')) ∧ tbl[op.toNat - DagOp.mul.toNat]? = none) := by
  induction fuel generalizing p ts l e with
  | zero => exact absurd hp (Nat.not_lt_zero _)
  | succ fuel ih =>
    unfold binaryLoop at h
    cases hop : L.opOf (next p).op with
    | none =>
      rw [hop] at h
      cases h
    | some op =>
      have hr := cons_of_next (p := p) (fun he => by rw [he, L.sentinel] at hop; cases hop)
      have hlt : (rest (adv p 1)).length + 1 = (rest p).length := by rw [rest_adv]; rw [hr]; simp
      have hsplit : ts ++ rest p = ts ++ next p :: rest (adv p 1) := by rw [rest_adv, ← hr]
      rw [hop, forward_cons hr] at h
      simp only at h
      have hg := ho (adv p 1) (by omega)
      cases he : operand (adv p 1) with
      | error e' => exact ⟨ts, l, next p, op, adv p 1, hl, hop, by omega, hsplit, Or.inl ⟨e', he⟩⟩
      | ok a =>
        obtain ⟨d, q⟩ := a
        rw [he] at h hg
        cases d with
        | null =>
          simp only at h
          split at h
          · cases h
          · rename_i hnone
            exact ⟨ts, l, next p, op, adv p 1, hl, hop, by omega, hsplit, Or.inr ⟨⟨q, he⟩, hnone⟩⟩
        | node op' v l' r' =>
          rcases hg with hn | ⟨us, hus, hd⟩
          · cases hn
          have hq := length_lt_of_split hus hd.ne_nil
          have hstep := L.step hop hl hd
          have hgood := binaryLoop_good L tbl ho fuel (p := q) (by omega) (by omega) hstep
          simp only at h
          cases he' : binaryLoop L.opOf tbl operand fuel q (mkd op l (.node op' v l' r'))
              (mkd op l (.node op' v l' r')) with
          | error e' =>
            obtain ⟨us', d', o', op'', q', h1, h2, h3, h4, h5⟩ := ih (p := q) (by omega) (by omega) hstep he'
            refine ⟨us', d', o', op'', q', h1, h2, by omega, ?_, h5⟩
            rw [← h4, hsplit, hus, List.append_assoc, List.cons_append]
          | ok a =>
            obtain ⟨d', q'⟩ := a
            rw [he'] at h hgood
            cases d' with
            | null => cases h
            | node op'' v' l'' r'' =>
              rcases hgood with hn | ⟨ws, hws, hd', hnone⟩
              · cases hn
              -- the second iteration does not stop
              simp only at h
              rw [binaryLoop_done _ _ hnone (by omega)] at h
              cases h

/-- What a chain parser does with its first operand. -/
theorem chain_error (h : (match operand p with
      | .error e => .error e
      | .ok (.null, p) => .ok (.null, p)
      | .ok (dag, p) => binaryLoop opOf tbl next_ fuel p dag dag : Answer V) = .error e) :
    operand p = .error e ∨ ∃ d q, operand p = .ok (d, q) ∧ d ≠ .null ∧
      binaryLoop opOf tbl next_ fuel q d d = .error e := by
  cases he : operand p with
  | error e' =>
    rw [he] at h
    cases h
    exact Or.inl rfl
  | ok a =>
    obtain ⟨d, q⟩ := a
    rw [he] at h
    cases d with
    | null => cases h
    | node op v l r => exact Or.inr ⟨_, q, rfl, node_ne_null, h⟩

/-- The operators of a term have their names. -/
theorem mul_in_table {op : LexerOp} {dop : DagOp} (h : mulOf op = some dop) :
    ["*", "/"][dop.toNat - DagOp.mul.toNat]? ≠ none := by
  cases op <;> cases h <;> decide

/-- Those of a sum do not. -/
theorem add_past_table {op : LexerOp} {dop : DagOp} (h : addOf op = some dop) :
    ["+", "-"][dop.toNat - DagOp.mul.toNat]? = none := by
  cases op <;> cases h <;> rfl

theorem exprMultiplicative_bad (hp : (rest p).length < fuel) (hg : GoodBelow .expr (fuel - 1) f)
    (hf : BadBelow .expr (fuel - 1) f) (h : exprMultiplicative f fuel p = .error e) : BadOperand .term (rest p) := by
  have hunary : GoodBelow .unary fuel (exprUnary f fuel) := exprUnary_goodBelow hg
  have hbad : BadBelow .unary fuel (exprUnary f fuel) := fun _ hq _ he =>
    exprUnary_bad fuel hq (fun r hr => hf r (by omega)) he
  rcases chain_error h with h | ⟨d, q, hq, hd, h⟩
  · exact .unary (hbad p hp e h)
  · have hgood := hunary p hp
    rw [hq] at hgood
    obtain ⟨ts, hts, hder⟩ := hgood.resolve_left hd
    have hlt := length_lt_of_split hts hder.ne_nil
    obtain ⟨us, d', o, op, q', h1, h2, h3, h4, h5⟩ :=
      binaryLoop_bad mulLevel hunary fuel (by omega) (by omega) (Derives.unary hder) h
    rw [hts, h4]
    rcases h5 with ⟨e', he⟩ | ⟨-, hnone⟩
    · exact .factor h1 (fun h0 => by rw [show mulOf o.op = some op from h2] at h0; cases h0) (hbad q' (by omega) e' he)
    · exact absurd hnone (mul_in_table h2)

/-- The parser of a term answers no DAG where there is no term. -/
theorem termAt_of_ok (hp : (rest p).length < fuel) (hg : GoodBelow .expr (fuel - 1) f) (hd : d ≠ .null)
    (h : exprMultiplicative f fuel p = .ok (d, q)) : TermAt (rest p) := by
  have hunary : GoodBelow .unary fuel (exprUnary f fuel) := exprUnary_goodBelow hg
  have hgood := hunary p hp
  unfold exprMultiplicative at h
  cases he : exprUnary f fuel p with
  | error e' =>
    rw [he] at h
    cases h
  | ok a =>
    obtain ⟨d', q'⟩ := a
    rw [he] at h hgood
    cases d' with
    | null =>
      cases h
      exact absurd rfl hd
    | node op v l r =>
      obtain ⟨ts, hts, hder⟩ := hgood.resolve_left node_ne_null
      have hlt := length_lt_of_split hts hder.ne_nil
      have hloop := binaryLoop_good mulLevel ["*", "/"] hunary fuel (p := q') (by omega)
        (by omega) (Derives.unary hder)
      change binaryLoop mulOf ["*", "/"] (exprUnary f fuel) fuel q' _ _ = _ at h
      change GoodLoop mulLevel ts q' (binaryLoop mulOf ["*", "/"] (exprUnary f fuel) fuel q' _ _) at hloop
      rw [h] at hloop
      obtain ⟨us, hus, hder', hend⟩ := hloop.resolve_left hd
      refine ⟨ts ++ us, rest q, d, by rw [hts, hus, List.append_assoc], hder', ?_⟩
      rw [← next_eq]
      exact hend

theorem termAt_ok (h : TermAt (rest p)) (hk : (rest p).length ≤ k) (hf : (rest p).length < fuel) :
    ∃ d q, exprMultiplicative (expr k) fuel p = .ok (d, q) ∧ d ≠ .null := by
  obtain ⟨us, r, d, hp, hder, hend⟩ := h
  refine ⟨d, adv p us.length, term_parsed hder.parsed hder.shape.ne_null hp hk hf ?_, hder.shape.ne_null⟩
  rw [next_adv hp]
  exact hend

theorem exprAdditive_bad (hp : (rest p).length < k + 1) (hf : BadBelow (V := V) .expr k (expr k))
    (h : exprAdditive (expr k) (k + 1) p = .error e) : BadOperand .expr (rest p) := by
  have hgood : GoodBelow .term (k + 1) (exprMultiplicative (expr k) (k + 1) : Parser V → Answer V) := fun q hq =>
    exprMultiplicative_good hq (expr_good k)
  rcases chain_error h with h | ⟨d, q, hq, hd, h⟩
  · exact .term (exprMultiplicative_bad hp (expr_good k) hf h)
  · have hg := hgood p hp
    rw [hq] at hg
    obtain ⟨ts, hts, hder⟩ := hg.resolve_left hd
    have hlt := length_lt_of_split hts hder.ne_nil
    obtain ⟨us, d', o, op, q', h1, h2, h3, h4, h5⟩ :=
      binaryLoop_bad addLevel hgood (k + 1) (by omega) (by omega) (Derives.term hder) h
    rw [hts, h4]
    refine .here h1 (fun h0 => by rw [show addOf o.op = some op from h2] at h0; cases h0) fun hterm => ?_
    obtain ⟨d'', q'', hok, hne⟩ := termAt_ok (k := k) hterm (by omega) (show _ < k + 1 by omega)
    rcases h5 with ⟨e', he⟩ | ⟨⟨q₁, he⟩, -⟩
    · rw [hok] at he
      cases he
    · rw [hok] at he
      cases he
      exact hne rfl

theorem expr_bad (k : Nat) : BadBelow (V := V) .expr k (expr k) := by
  induction k with
  | zero => exact fun p hp => absurd hp (Nat.not_lt_zero _)
  | succ k ih => exact fun p hp e h => exprAdditive_bad hp ih h

/-! ## A bad operand is reached -/

/-- With enough fuel, the loop at `q` with `d` built so far stops. -/
def LoopStops (opOf : LexerOp → Option DagOp) (tbl : List String) (operand : Parser V → Answer V) (q : Parser V)
    (d : ParserDag V) : Prop :=
  ∀ fuel, (rest q).length < fuel → ∃ e, binaryLoop opOf tbl operand fuel q d d = .error e

/-- At an operand. -/
theorem loopStops_operand {op : DagOp} (hq : rest q = o :: r) (hop : opOf o.op = some op)
    (h : (∃ e, operand (adv q 1) = .error e) ∨
      (∃ q', operand (adv q 1) = .ok (.null, q')) ∧ tbl[op.toNat - DagOp.mul.toNat]? = none) :
    LoopStops opOf tbl operand q l := by
  intro fuel hf
  cases fuel with
  | zero => exact absurd hf (Nat.not_lt_zero _)
  | succ fuel =>
    rw [binaryLoop, next_cons hq, hop, forward_cons hq]
    rcases h with ⟨e, he⟩ | ⟨⟨q', he⟩, hnone⟩
    · rw [he]
      exact ⟨e, rfl⟩
    · rw [he]
      simp only [hnone]
      exact ⟨_, rfl⟩

/-- One more operator and operand before. -/
theorem loopStops_step {op : DagOp} (hq : rest q = o :: us ++ r) (hop : opOf o.op = some op) (hx : x ≠ .null)
    (ho : operand (adv q 1) = .ok (x, adv q (1 + us.length)))
    (h : LoopStops opOf tbl operand (adv q (1 + us.length)) (mkd op l x)) : LoopStops opOf tbl operand q l := by
  intro fuel hf
  cases fuel with
  | zero => exact absurd hf (Nat.not_lt_zero _)
  | succ fuel =>
    have hlen : (rest (adv q (1 + us.length))).length < fuel := by
      rw [rest_adv, hq, List.length_drop]
      rw [hq] at hf
      simp at hf ⊢
      omega
    obtain ⟨e, he⟩ := h fuel hlen
    obtain ⟨_, _, _, _, rfl⟩ := ParserDag.exists_node hx
    rw [binaryLoop, next_cons hq, hop, forward_cons hq, ho]
    simp only
    rw [he]
    exact ⟨e, rfl⟩

/-- A chain parser stops where its loop does, once the tokens of a chain are consumed. -/
def Stops : Nonterminal → List (LexerToken V) → ParserDag V → Prop
  | .unary, _, _ => True
  | .term, ts, d => ∀ (p : Parser V) (r : List (LexerToken V)) (k fuel : Nat), rest p = ts ++ r →
      (rest p).length ≤ k → (rest p).length < fuel →
      LoopStops mulOf ["*", "/"] (exprUnary (expr k) fuel) (adv p ts.length) d →
      ∃ e, exprMultiplicative (expr k) fuel p = .error e
  | .expr, ts, d => ∀ (p : Parser V) (r : List (LexerToken V)) (k fuel : Nat), rest p = ts ++ r →
      (rest p).length ≤ k → (rest p).length < fuel → mulOf (next (adv p ts.length)).op = none →
      LoopStops addOf ["+", "-"] (exprMultiplicative (expr k) fuel) (adv p ts.length) d →
      ∃ e, exprAdditive (expr k) fuel p = .error e

theorem term_stops {op : DagOp} (hop : mulOf o.op = some op) (hx : x ≠ .null) (ihl : Stops .term ts l)
    (hr : Parsed .unary us x) : Stops .term (ts ++ o :: us) (mkd op l x) := by
  intro p r k fuel hp hk hf hloop
  have hp' : rest p = ts ++ (o :: us ++ r) := by rw [hp]; simp
  obtain ⟨hq, -, -⟩ := rest_operand hp
  apply ihl p _ k fuel hp' hk hf
  apply loopStops_step hq hop hx (unary_operand hr hp hk hf)
  simpa [Nat.add_comm, Nat.add_left_comm] using hloop

theorem expr_stops {op : DagOp} (hop : addOf o.op = some op) (hx : x ≠ .null) (ihl : Stops .expr ts l)
    (hr : Parsed .term us x) : Stops .expr (ts ++ o :: us) (mkd op l x) := by
  intro p r k fuel hp hk hf hmul hloop
  have hp' : rest p = ts ++ (o :: us ++ r) := by rw [hp]; simp
  obtain ⟨hq, -, -⟩ := rest_operand hp
  have ho : mulOf (next (adv p ts.length)).op = none := by
    rw [next_cons hq]
    exact mulOf_of_addOf hop
  apply ihl p _ k fuel hp' hk hf ho
  apply loopStops_step hq hop hx (term_operand hr hx hp hk hf hmul)
  simpa [Nat.add_comm, Nat.add_left_comm] using hloop

theorem Derives.stops (h : Derives n ts d) : Stops n ts d := by
  induction h with
  | val | paren | plus | minus => exact trivial
  | @unary ts d hd ih =>
    intro p r k fuel hp hk hf hloop
    have hle : (rest (adv p ts.length)).length < fuel := by
      rw [rest_adv, List.length_drop]
      exact Nat.lt_of_le_of_lt (Nat.sub_le _ _) hf
    obtain ⟨_, _, _, _, rfl⟩ := ParserDag.exists_node hd.shape.ne_null
    rw [exprMultiplicative, hd.parsed p r k fuel hp hk hf]
    exact hloop fuel hle
  | mul ho hl hr ihl _ => exact term_stops (by rw [ho]; rfl) hr.shape.ne_null ihl hr.parsed
  | div ho hl hr ihl _ => exact term_stops (by rw [ho]; rfl) hr.shape.ne_null ihl hr.parsed
  | @term ts d hd ih =>
    intro p r k fuel hp hk hf hmul hloop
    have hle : (rest (adv p ts.length)).length < fuel := by
      rw [rest_adv, List.length_drop]
      exact Nat.lt_of_le_of_lt (Nat.sub_le _ _) hf
    have hq := term_parsed hd.parsed hd.shape.ne_null hp hk hf hmul
    obtain ⟨_, _, _, _, rfl⟩ := ParserDag.exists_node hd.shape.ne_null
    rw [exprAdditive, hq]
    exact hloop fuel hle
  | add ho hl hr ihl _ => exact expr_stops (by rw [ho]; rfl) hr.shape.ne_null ihl hr.parsed
  | sub ho hl hr ihl _ => exact expr_stops (by rw [ho]; rfl) hr.shape.ne_null ihl hr.parsed

/-- The parser of the nonterminal stops on the tokens. -/
def StopsAt : Nonterminal → List (LexerToken V) → Prop
  | .unary, ts => ∀ (p : Parser V) (k fuel : Nat), rest p = ts → ts.length ≤ k → ts.length < fuel →
      ∃ e, exprUnary (expr k) fuel p = .error e
  | .term, ts => ∀ (p : Parser V) (k fuel : Nat), rest p = ts → ts.length ≤ k → ts.length < fuel →
      ∃ e, exprMultiplicative (expr k) fuel p = .error e
  | .expr, ts => ∀ (p : Parser V) (k : Nat), rest p = ts → ts.length < k → ∃ e, expr k p = .error e

theorem BadOperand.stopsAt (h : BadOperand n ts) : StopsAt n ts := by
  induction h with
  | @here o ts r d hd ho hno =>
    intro p k hp hk
    cases k with
    | zero => exact absurd hk (Nat.not_lt_zero _)
    | succ k =>
      obtain ⟨op, hop⟩ := Option.ne_none_iff_exists'.mp ho
      have hlen : (rest p).length = ts.length + r.length + 1 := by rw [hp]; simp; omega
      have hkp : (rest p).length < k + 1 := by rw [hp]; exact hk
      have hq : rest (adv p ts.length) = o :: r := by rw [rest_adv, hp, List.drop_left]
      have hr : rest (adv (adv p ts.length) 1) = r := by rw [rest_adv, hq]; rfl
      have hmul : mulOf (next (adv p ts.length)).op = none := by
        rw [next_cons hq]
        exact mulOf_of_addOf hop
      apply hd.stops p (o :: r) k (k + 1) hp (by omega) hkp hmul
      apply loopStops_operand hq hop
      -- the operand is no term
      cases he : exprMultiplicative (expr k) (k + 1) (adv (adv p ts.length) 1) with
      | error e => exact Or.inl ⟨e, rfl⟩
      | ok a =>
        obtain ⟨d', q⟩ := a
        by_cases hnull : d' = .null
        · subst hnull
          exact Or.inr ⟨⟨q, rfl⟩, add_past_table hop⟩
        · have hgood : GoodBelow (V := V) .expr (k + 1 - 1) (expr k) := expr_good k
          have hterm := termAt_of_ok (by rw [hr]; omega) hgood hnull he
          rw [hr] at hterm
          exact absurd hterm hno
  | @term ts h ih =>
    intro p k hp hk
    cases k with
    | zero => exact absurd hk (Nat.not_lt_zero _)
    | succ k =>
      obtain ⟨e, he⟩ := ih p k (k + 1) hp (by omega) hk
      rw [expr, exprAdditive, he]
      exact ⟨e, rfl⟩
  | @factor o ts r d hd ho h ih =>
    intro p k fuel hp hk hf
    obtain ⟨op, hop⟩ := Option.ne_none_iff_exists'.mp ho
    have hlen : (ts ++ o :: r).length = ts.length + r.length + 1 := by simp; omega
    have hq : rest (adv p ts.length) = o :: r := by rw [rest_adv, hp, List.drop_left]
    have hr : rest (adv (adv p ts.length) 1) = r := by rw [rest_adv, hq]; rfl
    apply hd.stops p (o :: r) k fuel hp (by rw [hp]; exact hk) (by rw [hp]; exact hf)
    apply loopStops_operand hq hop
    exact Or.inl (ih _ k fuel hr (by omega) (by omega))
  | @unary ts h ih =>
    intro p k fuel hp hk hf
    obtain ⟨e, he⟩ := ih p k fuel hp hk hf
    rw [exprMultiplicative, he]
    exact ⟨e, rfl⟩
  | @sign o r ho h ih =>
    intro p k fuel hp hk hf
    cases fuel with
    | zero => exact absurd hf (Nat.not_lt_zero _)
    | succ fuel =>
      rw [List.length_cons] at hk hf
      obtain ⟨e, he⟩ := ih (adv p 1) k fuel (by rw [rest_adv, hp]; rfl) (by omega) (by omega)
      refine ⟨e, ?_⟩
      rcases ho with ho | ho
      · rw [exprUnary, if_pos (match_iff.mpr (by rw [next_cons hp, ho])), forward_cons hp, he]
      · have hno : ¬ match_ p .add = true := fun hm => by
          have := match_iff.mp hm
          rw [next_cons hp, ho] at this
          cases this
        rw [exprUnary, if_neg hno, if_pos (match_iff.mpr (by rw [next_cons hp, ho])), forward_cons hp, he]
  | @paren o r ho h ih =>
    intro p k fuel hp hk hf
    cases fuel with
    | zero => exact absurd hf (Nat.not_lt_zero _)
    | succ fuel =>
      rw [List.length_cons] at hk hf
      obtain ⟨e, he⟩ := ih (adv p 1) k (by rw [rest_adv, hp]; rfl) (by omega)
      have hno : ∀ op, op ≠ LexerOp.open_ → match_ p op = false := fun op hop =>
        match_eq_false (by rw [next_cons hp, ho]; exact hop.symm)
      refine ⟨e, ?_⟩
      rw [exprUnary_eq_primary (hno .add (by simp)) (hno .sub (by simp)), exprPrimary,
        if_neg (by rw [hno .val (by simp)]; simp), if_pos (match_iff.mpr (by rw [next_cons hp, ho])), forward_cons hp, he]

/-! ## Token lists -/

/-- Where the parser starts. -/
def start (ts : List (LexerToken V)) : Parser V := ⟨false, 0, ts, []⟩

theorem top_error_iff (ts : List (LexerToken V)) :
    (∃ i, top (ts.length + 1) (start ts) = .error (.bounds i)) ↔ BadOperand .expr ts := by
  have hrest : rest (start ts) = ts := rest_start ts
  have hlt : (rest (start ts)).length < ts.length + 1 := by
    rw [hrest]
    exact Nat.lt_succ_self _
  constructor
  · rintro ⟨i, hi⟩
    unfold top at hi
    cases he : expr (ts.length + 1) (start ts) with
    | error e =>
      have := expr_bad _ _ hlt e he
      rwa [hrest] at this
    | ok a =>
      obtain ⟨d, q⟩ := a
      rw [he] at hi
      cases d with
      | null => cases hi
      | node op v l r =>
        simp only at hi
        split at hi <;> cases hi
  · intro h
    obtain ⟨e, he⟩ := h.stopsAt (start ts) (ts.length + 1) hrest (Nat.lt_succ_self _)
    have hg := expr_good (V := V) _ _ hlt
    rw [he] at hg
    obtain ⟨i, rfl⟩ := hg
    exact ⟨i, by rw [top, he]⟩

/-- The text is reported and not parsed. -/
def Rejected (strtod : List Char → V × Nat) (s : List Char) : Prop :=
  ∃ err, parserOpen strtod s = .ok (.null, err) ∧ err ≠ []

/-- No name is read past its table, and so a list that derives no expression is rejected. -/
structure Safe (ts : List (LexerToken V)) : Prop where
  inBounds : ∀ i, top (ts.length + 1) (start ts) ≠ .error (.bounds i)
  rejected : ∀ (strtod : List Char → V × Nat) (s : List Char) (lexer : Lexer V),
    lexerOpen strtod s = .ok (some lexer) → lexer.tokens = ts → (∀ d, ¬ Derives .expr ts d) → Rejected strtod s

theorem parserOpen_reports {strtod : List Char → V × Nat} {s : List Char} {err : List String}
    (h : parserOpen strtod s = .ok (.null, err)) : err ≠ [] := by
  unfold parserOpen at h
  split at h
  · cases h
  · cases h
    simp
  · split at h
    · cases h
      simp
    · split at h
      · cases h
      · cases h
        simp
      · rename_i hne _
        cases h
        exact (hne rfl).elim

/-- For every token list: all accesses to the tables are in bounds, and if no expression
    derives the list it is rejected, iff no `+` or `-` after an expression is without a term. -/
theorem rejecting_is_safe_iff (ts : List (LexerToken V)) : Safe ts ↔ ¬ BadOperand .expr ts := by
  rw [← top_error_iff]
  constructor
  · rintro h ⟨i, hi⟩
    exact h.inBounds i hi
  · intro h
    refine ⟨fun i hi => h ⟨i, hi⟩, ?_⟩
    rintro strtod s lexer hlex rfl hno
    rcases parserOpen_cases strtod hlex with ⟨d, err, hopen, hd⟩ | ⟨i, hi⟩
    · rcases hd with rfl | hd
      · exact ⟨err, hopen, parserOpen_reports hopen⟩
      · exact absurd hd (hno d)
    · -- `top` stopped
      refine absurd ⟨i, ?_⟩ h
      unfold parserOpen at hi
      rw [hlex] at hi
      simp only at hi
      split at hi
      · cases hi
      · rw [(lexerOpen_ok strtod hlex).size_eq] at hi
        split at hi
        · rename_i e he
          cases hi
          exact he
        · cases hi
        · cases hi

/-- "1+". -/
theorem a_missing_operand_reads_past_the_table : ¬ ∀ ts : List (LexerToken Int), Safe ts := by
  intro h
  exact (h [⟨.val, 1⟩, ⟨.add, 0⟩]).inBounds 2 rfl

end Cs238p.Jit
