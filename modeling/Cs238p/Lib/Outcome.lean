/-
  Cs238p.Lib.Outcome — what a computation that can stop early establishes.

  `Outcome E r P`: `r` ends with a value that meets `P`, or stops for one of the reasons
  `E`. The rule for sequences is `Outcome.bind`.

  `Agree R x y`: two computations with a state answer the same and leave states that `R`
  relates, or stop for the same reason.
-/

variable {ε α β : Type}

inductive Outcome (E : ε → Prop) : Except ε α → (α → Prop) → Prop
  | ok {a : α} {P : α → Prop} : P a → Outcome E (.ok a) P
  | error {e : ε} {P : α → Prop} : E e → Outcome E (.error e) P

variable {E : ε → Prop} {r : Except ε α} {P Q : α → Prop}

@[simp] theorem ok_bind (a : α) (k : α → Except ε β) : (Except.ok a >>= k) = k a := rfl

@[simp] theorem error_bind (e : ε) (k : α → Except ε β) : (Except.error e >>= k) = .error e := rfl

theorem outcome_trivial (r : Except ε α) : Outcome (fun _ => True) r fun _ => True := by
  cases r with
  | ok a => exact .ok trivial
  | error e => exact .error trivial

theorem Outcome.mono (h : Outcome E r P) (hpq : ∀ a, P a → Q a) : Outcome E r Q := by
  cases h with
  | ok h => exact .ok (hpq _ h)
  | error h => exact .error h

theorem Outcome.weaken {E' : ε → Prop} (h : Outcome E r P) (he : ∀ e, E e → E' e) : Outcome E' r P := by
  cases h with
  | ok h => exact .ok h
  | error h => exact .error (he _ h)

/-- A second fact about the value, shown from the first one. -/
theorem Outcome.and (h : Outcome E r P) (hq : ∀ a, P a → Outcome E r Q) : Outcome E r fun a => P a ∧ Q a := by
  cases h with
  | ok h =>
    cases hq _ h with
    | ok hq => exact .ok ⟨h, hq⟩
  | error h => exact .error h

/-- Two facts about one computation. -/
theorem Outcome.both {E' : ε → Prop} (h : Outcome E r P) (h' : Outcome E' r Q) : Outcome E r fun a => P a ∧ Q a := by
  cases h with
  | ok h =>
    cases h' with
    | ok h' => exact .ok ⟨h, h'⟩
  | error h => exact .error h

/-- A sequence: the rest starts from what the first part established. -/
theorem Outcome.bind {k : α → Except ε β} {R : β → Prop} (h : Outcome E r P) (hk : ∀ a, P a → Outcome E (k a) R) :
    Outcome E (r >>= k) R := by
  cases h with
  | ok h => exact hk _ h
  | error h => exact .error h

/-- A fact that the first part of a sequence brings along. -/
theorem Outcome.keep {A : Prop} {k : α → Except ε β} {R : β → Prop} (h : Outcome E r fun a => A ∧ P a)
    (hk : Outcome E r P → Outcome E (r >>= k) R) : Outcome E (r >>= k) fun b => A ∧ R b := by
  cases h with
  | ok h => exact (hk (.ok h.2)).mono fun _ hb => ⟨h.1, hb⟩
  | error h => exact .error h

/-- A run that does not stop for one of the reasons ends with a value. -/
theorem Outcome.exists_ok (h : Outcome E r P) (hE : ∀ e, r = .error e → ¬ E e) : ∃ a, r = .ok a ∧ P a := by
  cases h with
  | ok h => exact ⟨_, rfl, h⟩
  | error h => exact absurd h (hE _ rfl)

/-- What a part of the value is, when the computation ends with one. -/
theorem exists_ok_of_map {f : α → β} {b : β} (h : r.map f = .ok b) : ∃ a, r = .ok a ∧ f a = b := by
  cases r with
  | ok a => exact ⟨a, rfl, Except.ok.inj h⟩
  | error e => cases h

theorem ok_of_toOption {a : α} (h : r.toOption = some a) : r = .ok a := by
  cases r with
  | ok b => exact congrArg Except.ok (Option.some.inj h)
  | error e => cases h

/-- What holds of a part of the value holds of that part. -/
theorem Outcome.of_map {f : α → β} {R : β → Prop} (h : Outcome E (r.map f) R) : Outcome E r fun a => R (f a) := by
  cases r with
  | ok a =>
    cases h with
    | ok h => exact .ok h
  | error e =>
    cases h with
    | error h => exact .error h

theorem Outcome.map {f : α → β} {R : β → Prop} (h : Outcome E r P) (hf : ∀ a, P a → R (f a)) : Outcome E (r.map f) R := by
  cases h with
  | ok h => exact .ok (hf _ h)
  | error h => exact .error h

/-! ## Two computations -/

inductive Agree {σ τ : Type} (R : σ → τ → Prop) : Except ε (α × σ) → Except ε (α × τ) → Prop
  | ok {a : α} {s : σ} {t : τ} : R s t → Agree R (.ok (a, s)) (.ok (a, t))
  | error {e : ε} : Agree R (.error e) (.error e)

/-- The second one answers what the first one did. -/
theorem Agree.of_ok {σ τ : Type} {R : σ → τ → Prop} {x : Except ε (α × σ)} {y : Except ε (α × τ)} {a : α} {s : σ}
    (h : Agree R x y) (hx : x = .ok (a, s)) : ∃ t, y = .ok (a, t) ∧ R s t := by
  cases h with
  | ok h =>
    cases hx
    exact ⟨_, rfl, h⟩
  | error => cases hx
