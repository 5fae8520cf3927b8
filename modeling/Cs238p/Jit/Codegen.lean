/-
  Cs238p.Jit.Codegen — the code generator (`genFuncBodyFromDag` and `generate` of
  `project-1/main.c`) and what the C it prints means.

  A temporary `t%d` is named by the integer printed. A line of the generated function is
  a `Stmt`, its right-hand side a C expression (`CExpr`); numbers are exact rationals,
  the constant of a VAL line stands for the node's `val`. An expression has no value
  (`none`) where C gives it none: a temporary not declared yet, or a division by zero;
  the conditional evaluates the branch it takes only. Running a declaration of a name
  already declared fails too. So a run that ends has assigned each temporary once, after
  the temporaries it reads, and has never divided by zero.

  `varId` is an `int` of the program; it is counted here without a bound, since the
  numbers it takes are one per node of the DAG.

  Proved (`generate_preserves`): for every DAG of the parser's shape and every starting
  value of `varId`, the generated program runs to its end and hands the DAG's value to
  the callback.
-/
import Mathlib.Data.Rat.Defs
import Mathlib.Algebra.Order.Field.Rat
import Mathlib.Tactic.Ring
import Cs238p.Jit.Grammar

namespace Cs238p.Jit

/-! ## The generated C -/

inductive CExpr where
  | const (q : ℚ)
  | tmp (k : Int)
  | mul (a b : CExpr)
  | div (a b : CExpr)
  | add (a b : CExpr)
  | sub (a b : CExpr)
  /-- `c ? a : b`. -/
  | cond (c a b : CExpr)
  deriving DecidableEq, Repr

/-- `double t%d = …;`. -/
structure Stmt where
  target : Int
  value : CExpr
  deriving DecidableEq, Repr

/-- `double evaluate(double (*callback)(double))`: the lines of its body and the temporary
    of `return callback(t%d);`. -/
structure Program where
  body : List Stmt
  result : Int
  deriving DecidableEq, Repr

abbrev Env := Int → Option ℚ

def CExpr.eval (env : Env) : CExpr → Option ℚ
  | .const q => some q
  | .tmp k => env k
  | .mul a b => (a.eval env).bind fun x => (b.eval env).map (x * ·)
  | .div a b => (a.eval env).bind fun x => (b.eval env).bind fun y => if y = 0 then none else some (x / y)
  | .add a b => (a.eval env).bind fun x => (b.eval env).map (x + ·)
  | .sub a b => (a.eval env).bind fun x => (b.eval env).map (x - ·)
  | .cond c a b => (c.eval env).bind fun x => if x = 0 then b.eval env else a.eval env

/-- The temporaries an expression names. -/
def CExpr.temps : CExpr → List Int
  | .const _ => []
  | .tmp k => [k]
  | .mul a b | .div a b | .add a b | .sub a b => a.temps ++ b.temps
  | .cond c a b => c.temps ++ a.temps ++ b.temps

def declare (env : Env) (k : Int) (q : ℚ) : Env := fun j => if j = k then some q else env j

/-- A declaration: the name is new and its value is there. -/
def Stmt.exec (env : Env) (s : Stmt) : Option Env :=
  match env s.target with
  | some _ => none
  | none => (s.value.eval env).map (declare env s.target)

def execAll : List Stmt → Env → Option Env
  | [], env => some env
  | s :: ss, env => (s.exec env).bind (execAll ss)

/-- The call of `evaluate` with this callback. -/
def Program.call (p : Program) (callback : ℚ → ℚ) : Option ℚ :=
  (execAll p.body fun _ => none).bind fun env => (env p.result).map callback

/-! ## The generator -/

/-- What a call of `genFuncBodyFromDag` leaves: its return value, `varId`, and the lines
    it printed. -/
structure Gen where
  ret : Int
  varId : Int
  out : List Stmt
  deriving DecidableEq, Repr

/-- The line printed for a node, `none` for `PARSER_DAG_`, which prints none. -/
def lineOf (varId leftVarId rightVarId : Int) (val : ℚ) : DagOp → Option Stmt
  | .none_ => none
  | .val => some ⟨varId, .const val⟩
  | .neg => some ⟨varId, .mul (.const (-1)) (.tmp rightVarId)⟩
  | .mul => some ⟨varId, .mul (.tmp leftVarId) (.tmp rightVarId)⟩
  | .div => some ⟨varId, .cond (.tmp rightVarId) (.div (.tmp leftVarId) (.tmp rightVarId)) (.const 0)⟩
  | .add => some ⟨varId, .add (.tmp leftVarId) (.tmp rightVarId)⟩
  | .sub => some ⟨varId, .sub (.tmp leftVarId) (.tmp rightVarId)⟩

def genFuncBodyFromDag (varId : Int) : ParserDag ℚ → Gen
  | .null => ⟨-1, varId, []⟩
  | .node op val left right =>
    let l := genFuncBodyFromDag varId left
    let r := genFuncBodyFromDag l.varId right
    match lineOf r.varId l.ret r.ret val op with
    | none => ⟨-1, r.varId, l.out ++ r.out⟩
    | some line => ⟨r.varId + 1 - 1, r.varId + 1, l.out ++ r.out ++ [line]⟩

@[simp] theorem gen_null (varId : Int) : genFuncBodyFromDag varId .null = ⟨-1, varId, []⟩ := rfl

/-- `generate`, from this value of `varId`. -/
def generate (varId : Int) (dag : ParserDag ℚ) : Program :=
  let g := genFuncBodyFromDag varId dag
  ⟨g.out, g.ret⟩

@[simp] theorem generate_body (varId : Int) (dag : ParserDag ℚ) :
    (generate varId dag).body = (genFuncBodyFromDag varId dag).out := rfl
@[simp] theorem generate_result (varId : Int) (dag : ParserDag ℚ) :
    (generate varId dag).result = (genFuncBodyFromDag varId dag).ret := rfl

/-- The value of a DAG, a division with a zero divisor having value 0. -/
def ParserDag.value : ParserDag ℚ → ℚ
  | .null => 0
  | .node .none_ _ _ _ => 0
  | .node .val v _ _ => v
  | .node .neg _ _ r => -r.value
  | .node .mul _ l r => l.value * r.value
  | .node .div _ l r => if r.value = 0 then 0 else l.value / r.value
  | .node .add _ l r => l.value + r.value
  | .node .sub _ l r => l.value - r.value

/-! ## Running the lines of two subtrees one after the other -/

theorem execAll_append (a b : List Stmt) (env : Env) :
    execAll (a ++ b) env = (execAll a env).bind (execAll b) := by
  induction a generalizing env with
  | nil => rfl
  | cons s a ih =>
    simp only [List.cons_append, execAll]
    cases s.exec env with
    | none => rfl
    | some env' => exact ih env'

@[simp] theorem declare_same (env : Env) (k : Int) (q : ℚ) : declare env k q k = some q := by simp [declare]

theorem declare_ne (env : Env) {j k : Int} (q : ℚ) (h : j ≠ k) : declare env k q j = env j := by simp [declare, h]

theorem execAll_one {env : Env} {s : Stmt} {q : ℚ} (hn : env s.target = none) (he : s.value.eval env = some q) :
    execAll [s] env = some (declare env s.target q) := by
  simp [execAll, Stmt.exec, hn, he]

/-! ## The simulation -/

/-- From an environment with no temporary from `v` on, the lines run to an environment
    that has the value in the returned temporary, leaves the temporaries below `v` as
    they were, and has none from the new `varId` on. -/
structure Simulates (v : Int) (g : Gen) (value : ℚ) : Prop where
  lt : v < g.varId
  ret : g.ret = g.varId - 1
  run : ∀ env : Env, (∀ k, v ≤ k → env k = none) → ∃ env', execAll g.out env = some env' ∧
    env' g.ret = some value ∧ (∀ k < v, env' k = env k) ∧ ∀ k, g.varId ≤ k → env' k = none

/-- A node's own line, after the lines of its subtrees: its value is computed from what
    they left in their temporaries. -/
theorem simulates_line (out : List Stmt) {v w : Int} {e : CExpr} {q : ℚ} (hv : v ≤ w)
    (hrun : ∀ env : Env, (∀ k, v ≤ k → env k = none) → ∃ env', execAll out env = some env' ∧
      e.eval env' = some q ∧ (∀ k < v, env' k = env k) ∧ ∀ k, w ≤ k → env' k = none) :
    Simulates v ⟨w + 1 - 1, w + 1, out ++ [⟨w, e⟩]⟩ q := by
  refine ⟨by simp only; omega, by simp, ?_⟩
  intro env henv
  obtain ⟨env', hexec, he, hlow, hhigh⟩ := hrun env henv
  refine ⟨declare env' w q, ?_, by simp, ?_, ?_⟩
  · show execAll (out ++ [⟨w, e⟩]) env = _
    rw [execAll_append, hexec]
    exact execAll_one (hhigh w (Int.le_refl _)) he
  · intro k hk
    rw [declare_ne _ _ (by omega)]; exact hlow k hk
  · intro k hk
    simp only at hk
    rw [declare_ne _ _ (by omega)]; exact hhigh k (by omega)

/-- The lines of two subtrees: both values are there at the end. -/
theorem simulates_two {v : Int} {l r : Gen} {x y : ℚ} (hl : Simulates v l x) (hr : Simulates l.varId r y) :
    ∀ env : Env, (∀ k, v ≤ k → env k = none) → ∃ env', execAll (l.out ++ r.out) env = some env' ∧
      (env' l.ret = some x ∧ env' r.ret = some y) ∧ (∀ k < v, env' k = env k) ∧ ∀ k, r.varId ≤ k → env' k = none := by
  intro env henv
  obtain ⟨env₁, hexec₁, hx, hlow₁, hhigh₁⟩ := hl.run env henv
  obtain ⟨env₂, hexec₂, hy, hlow₂, hhigh₂⟩ := hr.run env₁ hhigh₁
  have hlt := hl.lt
  refine ⟨env₂, ?_, ⟨?_, hy⟩, ?_, hhigh₂⟩
  · rw [execAll_append, hexec₁]; exact hexec₂
  · rw [hlow₂ _ (by rw [hl.ret]; omega)]; exact hx
  · intro k hk
    rw [hlow₂ k (by omega)]; exact hlow₁ k hk

theorem gen_simulates {d : ParserDag ℚ} (hd : d.Shape) (v : Int) :
    Simulates v (genFuncBodyFromDag v d) d.value := by
  induction hd generalizing v with
  | val q =>
    apply simulates_line [] (Int.le_refl v)
    intro env henv
    exact ⟨env, rfl, rfl, fun _ _ => rfl, henv⟩
  | @neg q r _ ih =>
    have hr := ih v
    apply simulates_line (genFuncBodyFromDag v r).out (by simpa using Int.le_of_lt hr.lt)
    intro env henv
    obtain ⟨env', hexec, hx, hlow, hhigh⟩ := hr.run env henv
    exact ⟨env', hexec, by simp [CExpr.eval, hx, ParserDag.value], hlow, by simpa using hhigh⟩
  | @binary op q l r hop _ _ ihl ihr =>
    have hl := ihl v
    have hr := ihr (genFuncBodyFromDag v l).varId
    have hle : v ≤ (genFuncBodyFromDag (genFuncBodyFromDag v l).varId r).varId := by
      have := hl.lt; have := hr.lt; omega
    have two := simulates_two hl hr
    simp only [List.mem_cons, List.not_mem_nil, or_false] at hop
    -- each operator reads the two temporaries its subtrees returned
    rcases hop with rfl | rfl | rfl | rfl <;> refine simulates_line _ hle fun env henv => ?_ <;>
      obtain ⟨env', hexec, ⟨hx, hy⟩, hlow, hhigh⟩ := two env henv <;>
      refine ⟨env', hexec, ?_, hlow, hhigh⟩
    · simp [CExpr.eval, hx, hy, ParserDag.value]
    · by_cases h0 : r.value = 0
      · simp [CExpr.eval, hy, ParserDag.value, h0]
      · simp [CExpr.eval, hx, hy, ParserDag.value, h0]
    · simp [CExpr.eval, hx, hy, ParserDag.value]
    · simp [CExpr.eval, hx, hy, ParserDag.value]

/-! ## The names of the temporaries -/

/-- The lines declare `v`, `v + 1`, … up to the new `varId`, in order, and each reads
    temporaries from `v` to the one before its own. -/
structure Names (v : Int) (g : Gen) : Prop where
  count : g.varId = v + g.out.length
  target : ∀ i (h : i < g.out.length), (g.out[i]).target = v + i
  reads : ∀ s ∈ g.out, ∀ k ∈ s.value.temps, v ≤ k ∧ k < s.target

/-- A node's own line after those of its subtrees. -/
theorem names_line {v : Int} (out : List Stmt) {e : CExpr} (ht : ∀ i (h : i < out.length), (out[i]).target = v + i)
    (hr : ∀ s ∈ out, ∀ k ∈ s.value.temps, v ≤ k ∧ k < s.target) {w : Int} (hw : w = v + out.length)
    (he : ∀ k ∈ e.temps, v ≤ k ∧ k < w) : Names v ⟨w + 1 - 1, w + 1, out ++ [⟨w, e⟩]⟩ := by
  refine ⟨by simp only [List.length_append, List.length_singleton]; omega, ?_, ?_⟩
  · intro i hi
    simp only
    by_cases h : i < out.length
    · rw [List.getElem_append_left h]; exact ht i h
    · have : i = out.length := by simp only [List.length_append, List.length_singleton] at hi; omega
      subst this
      simpa using hw
  · intro s hs
    rcases List.mem_append.mp hs with hs | hs
    · exact hr s hs
    · simp only [List.mem_singleton] at hs; subst hs; exact he

theorem names_append {v : Int} {l r : Gen} (hl : Names v l) (hr : Names l.varId r) :
    (∀ i (h : i < (l.out ++ r.out).length), ((l.out ++ r.out)[i]).target = v + i) ∧
    (∀ s ∈ l.out ++ r.out, ∀ k ∈ s.value.temps, v ≤ k ∧ k < s.target) ∧
    r.varId = v + (l.out ++ r.out).length := by
  have hc := hl.count
  refine ⟨?_, ?_, ?_⟩
  · intro i hi
    by_cases h : i < l.out.length
    · rw [List.getElem_append_left h]; exact hl.target i h
    · rw [List.getElem_append_right (by omega), hr.target, hc]
      omega
  · intro s hs k hk
    rcases List.mem_append.mp hs with hs | hs
    · exact hl.reads s hs k hk
    · have := hr.reads s hs k hk; omega
  · rw [hr.count, hc, List.length_append]; omega

theorem gen_names {d : ParserDag ℚ} (hd : d.Shape) (v : Int) : Names v (genFuncBodyFromDag v d) := by
  induction hd generalizing v with
  | val q => exact names_line [] (w := v) (by simp) (by simp) (by simp) (by simp [CExpr.temps])
  | @neg q r hr ih =>
    have hn := ih v
    have hs := gen_simulates hr v
    apply names_line _ hn.target hn.reads hn.count
    intro k hk
    simp only [CExpr.temps, List.nil_append, List.mem_singleton] at hk
    subst hk
    simp only [gen_null]
    have := hs.lt
    have := hs.ret
    omega
  | @binary op q l r hop hl hr ihl ihr =>
    have sl := gen_simulates hl v
    have sr := gen_simulates hr (genFuncBodyFromDag v l).varId
    obtain ⟨ht, hreads, hc⟩ := names_append (ihl v) (ihr (genFuncBodyFromDag v l).varId)
    have hlt := sl.lt
    have hlt' := sr.lt
    have hrl := sl.ret
    have hrr := sr.ret
    simp only [List.mem_cons, List.not_mem_nil, or_false] at hop
    rcases hop with rfl | rfl | rfl | rfl <;> refine names_line _ ht hreads hc fun k hk => ?_ <;>
      simp only [CExpr.temps, List.append_nil, List.cons_append, List.nil_append, List.mem_cons, List.not_mem_nil,
        or_false] at hk <;> omega

/-- Code generation preserves meaning: the program printed for a DAG of the parser's
    shape assigns each temporary once, reads temporaries assigned by earlier lines only,
    runs to its end (so it never divides by zero), and hands the DAG's value to the
    callback, whatever `varId` starts from. The names printed are C identifiers, and the `int`
    does not overflow, where `0 ≤ v` and `v` plus the number of nodes is at most INT_MAX; the
    program starts from 0. -/
theorem generate_preserves {d : ParserDag ℚ} (hd : d.Shape) (v : Int) :
    ((generate v d).body.map Stmt.target).Nodup ∧
    (∀ pre s post, (generate v d).body = pre ++ s :: post → ∀ k ∈ s.value.temps, k ∈ pre.map Stmt.target) ∧
    (∃ env, execAll (generate v d).body (fun _ => none) = some env ∧ env (generate v d).result = some d.value) ∧
    ∀ callback, (generate v d).call callback = some (callback d.value) := by
  have hn := gen_names hd v
  obtain ⟨env, hexec, hval, -, -⟩ := (gen_simulates hd v).run (fun _ => none) fun _ _ => rfl
  refine ⟨?_, ?_, ⟨env, hexec, hval⟩, ?_⟩
  · rw [List.Nodup, List.pairwise_iff_getElem]
    intro i j hi hj hij
    simp only [List.length_map, generate_body] at hi hj
    simp only [List.getElem_map, generate_body, ne_eq]
    rw [hn.target i hi, hn.target j hj]
    omega
  · intro pre s post h k hk
    have h' : (genFuncBodyFromDag v d).out = pre ++ s :: post := h
    have htar : ∀ i (hi : i < pre.length), (pre[i]).target = v + i := by
      intro i hi
      have := hn.target i (by rw [h']; simp; omega)
      simpa [h', List.getElem_append_left hi] using this
    have hs : s.target = v + pre.length := by
      have := hn.target pre.length (by rw [h']; simp)
      simpa [h'] using this
    obtain ⟨h1, h2⟩ := hn.reads s (by rw [h']; simp) k hk
    have hi : (k - v).toNat < pre.length := by omega
    refine List.mem_map.mpr ⟨pre[(k - v).toNat], List.getElem_mem hi, ?_⟩
    rw [htar _ hi]; omega
  · intro callback
    unfold Program.call
    rw [generate_body, generate_result, hexec, Option.bind_some, hval]
    rfl

/-- `-(6 / 0) + 1`, with `varId` at 40. -/
theorem generate_preserves_zero_divisor :
    (generate 40 (.node .add 0 (.node .neg 0 .null (.node .div 0 (.node .val 6 .null .null) (.node .val 0 .null .null)))
      (.node .val 1 .null .null))).call (· * 2) = some 2 := by
  have hd : ParserDag.Shape (.node .add 0 (.node .neg 0 .null (.node .div 0 (.node .val 6 .null .null)
      (.node .val 0 .null .null))) (.node .val (1 : ℚ) .null .null)) :=
    .binary 0 (by simp) (.neg 0 (.binary 0 (by simp) (.val 6) (.val 0))) (.val 1)
  rw [(generate_preserves hd 40).2.2.2 (· * 2)]
  simp [ParserDag.value]

end Cs238p.Jit
