/-
  Cs238p.Lib.Calls — programs that call a server, and servers that match.

  A program (`Prog`) answers, stops, or makes a call and goes on with what it is answered;
  `Prog.run` runs it on a server with a state. A server may be driven by a script, a list of
  choices of which each call takes some from the front: `Scripted` states are functions of
  the script that is left.

  `Matched E F J R x y`: on some script `y` answers what `x` does and leaves a state that `R`
  relates, or both stop for reasons that `J` relates. Nothing is said where `x` stops for a
  reason in `E`, or `y` for one in `F`.

  The calls of a program may be programs themselves, on another server (`Prog.expand`), with
  a state of their own that goes from call to call (`Prog.via`).

  Proved: when every call on one server is matched by the same call on a scripted one, every
  program is (`Prog.run_matched`), and so is every sequence (`Matched.bind`); when every call
  is what its program does on the other server, so is every program (`Prog.run_expand`,
  `Prog.run_via`).
-/
import Cs238p.Lib.Outcome

namespace Calls

inductive Prog (Q : Type) (A : Q → Type) (ε α : Type) where
  | ret (a : α)
  | stop (e : ε)
  | ask (q : Q) (k : A q → Prog Q A ε α)

variable {Q : Type} {A : Q → Type} {ε ε' α β σ τ χ : Type}

namespace Prog

def bind : Prog Q A ε α → (α → Prog Q A ε β) → Prog Q A ε β
  | ret a, k => k a
  | stop e, _ => stop e
  | ask q f, k => ask q fun x => (f x).bind k

instance : Monad (Prog Q A ε) where
  pure := ret
  bind := bind

/-- The program that makes one call. -/
def call (q : Q) : Prog Q A ε (A q) := ask q ret

def run (serve : (q : Q) → σ → Except ε' (A q × σ)) (lift : ε → ε') : Prog Q A ε α → σ → Except ε' (α × σ)
  | ret a, s => .ok (a, s)
  | stop e, _ => .error (lift e)
  | ask q k, s => serve q s >>= fun r => (k r.1).run serve lift r.2

/-- All calls that the program can make meet `P`, and all its answers `post`. -/
inductive Within (P : Q → Prop) (post : α → Prop) : Prog Q A ε α → Prop
  | ret {a : α} : post a → Within P post (ret a)
  | stop {e : ε} : Within P post (stop e)
  | ask {q : Q} {k : A q → Prog Q A ε α} : P q → (∀ x, Within P post (k x)) → Within P post (ask q k)

variable {serve : (q : Q) → σ → Except ε' (A q × σ)} {lift : ε → ε'} {P : Q → Prop} {post : α → Prop} {post' : β → Prop}

@[simp] theorem pure_eq (a : α) : (pure a : Prog Q A ε α) = ret a := rfl

@[simp] theorem bind_eq (p : Prog Q A ε α) (k : α → Prog Q A ε β) : p >>= k = p.bind k := rfl

@[simp] theorem run_ret (a : α) (s : σ) : (ret a : Prog Q A ε α).run serve lift s = .ok (a, s) := rfl

@[simp] theorem run_ask (q : Q) (k : A q → Prog Q A ε α) (s : σ) :
    (ask q k).run serve lift s = serve q s >>= fun r => (k r.1).run serve lift r.2 := rfl

theorem run_bind (p : Prog Q A ε α) (k : α → Prog Q A ε β) (s : σ) :
    (p.bind k).run serve lift s = p.run serve lift s >>= fun r => (k r.1).run serve lift r.2 := by
  induction p generalizing s with
  | ret a => rfl
  | stop e => rfl
  | ask q f ih =>
    rw [bind, run_ask, run_ask]
    cases serve q s with
    | error e => rfl
    | ok r => exact ih r.1 r.2

theorem Within.bind {p : Prog Q A ε α} {k : α → Prog Q A ε β} (hp : p.Within P post) (hk : ∀ a, post a → (k a).Within P post') :
    (p.bind k).Within P post' := by
  induction hp with
  | ret h => exact hk _ h
  | stop => exact .stop
  | ask hq _ ih => exact .ask hq ih

/-- What the program answers on a server. -/
theorem Within.run {p : Prog Q A ε α} (hp : p.Within P post) {s s' : σ} {a : α} (h : p.run serve lift s = .ok (a, s')) :
    post a := by
  induction hp generalizing s with
  | ret hpost =>
    cases h
    exact hpost
  | stop => cases h
  | @ask q k _ _ ih =>
    rw [run_ask] at h
    cases hs : serve q s with
    | error e =>
      rw [hs] at h
      cases h
    | ok r =>
      rw [hs] at h
      exact ih r.1 h

/-- A server's state read as another one's. -/
theorem run_map {τ : Type} {serve' : (q : Q) → τ → Except ε' (A q × τ)} {g : τ → σ}
    (h : ∀ q s, serve q (g s) = (serve' q s).map fun r => (r.1, g r.2)) (p : Prog Q A ε α) (s : τ) :
    p.run serve lift (g s) = (p.run serve' lift s).map fun r => (r.1, g r.2) := by
  induction p generalizing s with
  | ret a => rfl
  | stop e => rfl
  | ask q k ih =>
    rw [run_ask, run_ask, h]
    cases serve' q s with
    | error e => rfl
    | ok r => exact ih r.1 r.2

/-! ## Calls that are programs -/

variable {R : Type} {B : R → Type} {φ τ : Type}

/-- Each call is a program on another server. -/
def expand (impl : (q : Q) → Prog R B ε (A q)) : Prog Q A ε α → Prog R B ε α
  | ret a => ret a
  | stop e => stop e
  | ask q k => (impl q).bind fun x => (k x).expand impl

/-- Each call is a program on another server, and a state goes from call to call. -/
def via (impl : (q : Q) → φ → Prog R B ε (A q × φ)) : Prog Q A ε α → φ → Prog R B ε (α × φ)
  | ret a, f => ret (a, f)
  | stop e, _ => stop e
  | ask q k, f => (impl q f).bind fun r => (k r.1).via impl r.2

variable {serve' : (q : R) → τ → Except ε' (B q × τ)} {P' : R → Prop} {F : φ → Prop}

theorem run_expand {impl : (q : Q) → Prog R B ε (A q)} {serve' : (q : R) → σ → Except ε' (B q × σ)}
    (h : ∀ q s, (impl q).run serve' lift s = serve q s) (p : Prog Q A ε α) (s : σ) :
    (p.expand impl).run serve' lift s = p.run serve lift s := by
  induction p generalizing s with
  | ret a => rfl
  | stop e => rfl
  | ask q k ih =>
    rw [expand, run_bind, h, run_ask]
    cases serve q s with
    | error e => rfl
    | ok r => exact ih r.1 r.2

/-- The state of the calls is a part of the first server's, which `join` puts together. -/
theorem run_via {impl : (q : Q) → φ → Prog R B ε (A q × φ)} {join : τ → φ → σ} {I : τ → Prop}
    (h : ∀ q f s, I s → serve q (join s f) = ((impl q f).run serve' lift s).map fun r => (r.1.1, join r.2 r.1.2))
    (hI : ∀ q s r, I s → serve' q s = .ok r → I r.2) (p : Prog Q A ε α) {f : φ} {s : τ} (hs : I s) :
    p.run serve lift (join s f) = ((p.via impl f).run serve' lift s).map fun r => (r.1.1, join r.2 r.1.2) := by
  have hrun : ∀ {β : Type} (q : Prog R B ε β) {s : τ} {r : β × τ}, I s → q.run serve' lift s = .ok r → I r.2 := by
    intro β q
    induction q with
    | ret a =>
      intro s r hs hr
      cases hr
      exact hs
    | stop e =>
      intro s r _ hr
      cases hr
    | ask q k ih =>
      intro s r hs hr
      rw [run_ask] at hr
      cases hq : serve' q s with
      | error e =>
        rw [hq] at hr
        cases hr
      | ok x =>
        rw [hq] at hr
        exact ih x.1 (hI q s x hs hq) hr
  induction p generalizing f s with
  | ret a => rfl
  | stop e => rfl
  | ask q k ih =>
    rw [via, run_bind, run_ask, h q f s hs]
    cases hq : (impl q f).run serve' lift s with
    | error e => rfl
    | ok r => exact ih r.1.1 (hrun _ hs hq)

theorem Within.via {impl : (q : Q) → φ → Prog R B ε (A q × φ)}
    (h : ∀ q f, F f → (impl q f).Within P' fun r => F r.2) (p : Prog Q A ε α) {f : φ} (hf : F f) :
    (p.via impl f).Within P' fun r => F r.2 := by
  induction p generalizing f with
  | ret a => exact .ret hf
  | stop e => exact .stop
  | ask q k ih => exact (h q f hf).bind fun r hr => ih r.1 hr

end Prog

/-! ## Matching a scripted server -/

/-- A state that the script is given to. -/
abbrev Scripted (χ τ : Type) := List χ → τ

inductive Matched (E : ε → Prop) (F : ε' → Prop) (J : ε → ε' → Prop) (R : σ → Scripted χ τ → Prop) :
    Except ε (α × σ) → (List χ → Except ε' (α × τ)) → Prop
  | answers {a : α} {s : σ} {y : List χ → Except ε' (α × τ)} (pre : List χ) (t : Scripted χ τ) : R s t →
    (∀ rest, y (pre ++ rest) = .ok (a, t rest)) → Matched E F J R (.ok (a, s)) y
  | errs {e : ε} {e' : ε'} {y : List χ → Except ε' (α × τ)} (pre : List χ) : J e e' → (∀ rest, y (pre ++ rest) = .error e') →
    Matched E F J R (.error e) y
  | stops {x : Except ε (α × σ)} {y : List χ → Except ε' (α × τ)} (pre : List χ) (e : ε') : F e →
    (∀ rest, y (pre ++ rest) = .error e) → Matched E F J R x y
  | excused {e : ε} {y : List χ → Except ε' (α × τ)} : E e → Matched E F J R (.error e) y

variable {E : ε → Prop} {F : ε' → Prop} {J : ε → ε' → Prop} {R : σ → Scripted χ τ → Prop} {x : Except ε (α × σ)}
  {y : List χ → Except ε' (α × τ)}

theorem Matched.pure {a : α} {s : σ} {t : Scripted χ τ} (h : R s t) :
    Matched E F J R (.ok (a, s)) fun script => (.ok (a, t script) : Except ε' (α × τ)) :=
  .answers [] t h fun _ => rfl

/-- The scripted side takes `pre` before it goes on. -/
theorem Matched.prepend {z : List χ → Except ε' (α × τ)} (h : Matched E F J R x y) (pre : List χ)
    (hz : ∀ rest, z (pre ++ rest) = y rest) : Matched E F J R x z := by
  have hgo : ∀ pre' rest, z (pre ++ pre' ++ rest) = y (pre' ++ rest) := fun pre' rest => by rw [List.append_assoc, hz]
  cases h with
  | excused he => exact .excused he
  | errs pre' hj hy => exact .errs (pre ++ pre') hj fun rest => (hgo pre' rest).trans (hy rest)
  | stops pre' e hf hy => exact .stops (pre ++ pre') e hf fun rest => (hgo pre' rest).trans (hy rest)
  | answers pre' t hr hy => exact .answers (pre ++ pre') t hr fun rest => (hgo pre' rest).trans (hy rest)

/-- The scripts of the two parts follow each other. -/
theorem Matched.bind {f : α × σ → Except ε (β × σ)} {g : α × τ → Except ε' (β × τ)} (h : Matched E F J R x y)
    (hk : ∀ a s t, R s t → Matched E F J R (f (a, s)) fun script => g (a, t script)) :
    Matched E F J R (x >>= f) fun script => y script >>= g := by
  cases h with
  | excused he => exact .excused he
  | errs pre hj hy => exact .errs pre hj fun rest => by rw [hy]; rfl
  | stops pre e hf hy => exact .stops pre e hf fun rest => by rw [hy]; rfl
  | @answers a s _ pre t hr hy =>
    rw [ok_bind]
    exact (hk a s t hr).prepend pre fun rest => by rw [hy, ok_bind]

/-- What the scripted side establishes on every script, up to stops that are matched. -/
theorem Matched.outcome {X : ε' → Prop} {post : α → τ → Prop} (h : Matched E F J R x y)
    (hy : ∀ script, Outcome X (y script) fun r => post r.1 r.2) (hX : ∀ e, X e → ¬ F e) :
    Outcome (fun e => E e ∨ ∃ e', X e' ∧ J e e') x fun r => ∃ t, R r.2 t ∧ ∀ script, post r.1 (t script) := by
  have herror : ∀ {script e}, y script = .error e → X e := by
    intro script e he
    have hout := hy script
    rw [he] at hout
    cases hout with
    | error hx => exact hx
  cases h with
  | excused he => exact .error (Or.inl he)
  | errs pre hj he => exact .error (Or.inr ⟨_, herror (he []), hj⟩)
  | stops pre e hf he => exact absurd hf (hX _ (herror (he [])))
  | answers pre t hr ht =>
    refine .ok ⟨t, hr, fun script => ?_⟩
    have hout := hy (pre ++ script)
    rw [ht] at hout
    cases hout with
    | ok hpost => exact hpost

/-- The answer and the states are put into another form. -/
theorem Matched.map {σ₂ τ₂ : Type} {R₂ : σ₂ → Scripted χ τ₂ → Prop} {f : α × σ → β × σ₂} {g : α × τ → β × τ₂}
    (h : Matched E F J R x y)
    (hf : ∀ a s t, x = .ok (a, s) → R s t → ∃ t₂, R₂ (f (a, s)).2 t₂ ∧ ∀ script, g (a, t script) = ((f (a, s)).1, t₂ script)) :
    Matched E F J R₂ (x.map f) fun script => (y script).map g := by
  cases h with
  | excused he => exact .excused he
  | errs pre hj hy => exact .errs pre hj fun rest => by rw [hy]; rfl
  | stops pre e he hy => exact .stops pre e he fun rest => by rw [hy]; rfl
  | @answers a s _ pre t hr hy =>
    obtain ⟨t₂, hr₂, hg⟩ := hf a s t rfl hr
    refine .answers pre t₂ hr₂ fun rest => ?_
    rw [hy, Except.map, hg]

variable {ε₁ : Type} {serve : (q : Q) → σ → Except ε (A q × σ)} {serve' : (q : Q) → τ → Except ε' (A q × τ)}
  {lift : ε₁ → ε} {lift' : ε₁ → ε'} {P : Q → Prop} {post : α → Prop}

/-- Call by call. -/
theorem Prog.run_matched (hJ : ∀ e, J (lift e) (lift' e))
    (h : ∀ q, P q → ∀ s t, R s t → Matched E F J R (serve q s) fun script => serve' q (t script))
    {p : Prog Q A ε₁ α} (hp : p.Within P post) {s : σ} {t : Scripted χ τ} (hr : R s t) :
    Matched E F J R (p.run serve lift s) fun script => p.run serve' lift' (t script) := by
  induction hp generalizing s t with
  | ret => exact .pure hr
  | stop => exact .errs [] (hJ _) fun _ => rfl
  | ask hq _ ih => exact (h _ hq s t hr).bind fun x s t hr => ih x hr

end Calls
