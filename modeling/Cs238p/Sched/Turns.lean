/-
  Cs238p.Sched.Turns — what the jobs of the scheduler are due, from the slices alone: the
  jobs created and finished in them (`created`, `finished`), the jobs in between in the
  order of creation (`unfinished`), and how often each has run (`ran`).

  `Trace`: slices that a round robin over the jobs (`RoundRobin.Turn`) gives out. In every
  trace the queue is the list of unfinished jobs (`Board`, `board_next`); from `trace_split`,
  which stops a trace at any of its slices, follow who is dispatched after a slice
  (`trace_next`), that every other job has one slice between two of a job (`trace_once`),
  that a job's slices are run in order (`trace_in_order`) and none after it has returned
  (`trace_returned`).
-/
import Cs238p.Lib.RoundRobin
import Cs238p.Sched.Scheduler
import Mathlib.Data.List.Induction

namespace Cs238p.Sched

open RoundRobin

variable {Fnc Arg : Type} {jobs : List (Fnc × Arg)} {es es' : List (Event Fnc Arg)} {e : Event Fnc Arg}
  {o o' : Option (Turn Nat)} {t : Turn Nat}

/-- The jobs created: those before `scheduler_execute`, then those created in the slices. -/
def created (jobs : List (Fnc × Arg)) (es : List (Event Fnc Arg)) : List (Fnc × Arg) :=
  jobs ++ es.flatMap (·.does.creates)

/-- The jobs whose function has returned. -/
def finished (es : List (Event Fnc Arg)) : List Nat := (es.filter (·.does.returns)).map Event.job

/-- The jobs created by the end of `es` that have not returned in `fs`, in the order in which
    they were created. -/
def notReturned (jobs : List (Fnc × Arg)) (es fs : List (Event Fnc Arg)) : List Nat :=
  (List.range (created jobs es).length).filter (· ∉ finished fs)

def unfinished (jobs : List (Fnc × Arg)) (es : List (Event Fnc Arg)) : List Nat := notReturned jobs es es

/-- How many slices of job `a` have been run. -/
def ran (es : List (Event Fnc Arg)) (a : Nat) : Nat := (es.map Event.job).count a

/-! ## One slice more -/

@[simp] theorem created_append (jobs : List (Fnc × Arg)) (es es' : List (Event Fnc Arg)) :
    created jobs (es ++ es') = created jobs es ++ es'.flatMap (·.does.creates) := by
  simp [created]

theorem finished_snoc (es : List (Event Fnc Arg)) (e : Event Fnc Arg) :
    finished (es ++ [e]) = finished es ++ if e.does.returns then [e.job] else [] := by
  unfold finished
  rw [List.filter_append, List.map_append]
  cases h : e.does.returns <;> simp [h]

theorem ran_snoc (es : List (Event Fnc Arg)) (e : Event Fnc Arg) (a : Nat) :
    ran (es ++ [e]) a = ran es a + if e.job = a then 1 else 0 := by
  simp [ran, List.count_singleton]

/-- What the slice `e` is in the queue, when `n` jobs have been created before it. -/
def move (n : Nat) (e : Event Fnc Arg) : Move Nat := ⟨List.range' n e.does.creates.length, e.does.returns⟩

/-- The queue is the list of unfinished jobs. -/
structure Board (jobs : List (Fnc × Arg)) (es : List (Event Fnc Arg)) (o : Option (Turn Nat)) : Prop where
  queue_eq : queue o = unfinished jobs es
  known : ∀ a ∈ finished es, a < (created jobs es).length

theorem notReturned_snoc (e : Event Fnc Arg) (h : ∀ a ∈ finished es, a < (created jobs es).length) :
    notReturned jobs (es ++ [e]) es = unfinished jobs es ++ (move (created jobs es).length e).joins := by
  have hnew : (List.range' (created jobs es).length e.does.creates.length).filter (· ∉ finished es)
      = List.range' (created jobs es).length e.does.creates.length := by
    refine List.filter_eq_self.2 fun a ha => decide_eq_true ?_
    intro hf
    have h1 := h a hf
    have h2 := (List.mem_range'_1.1 ha).1
    omega
  simp only [notReturned, unfinished, created_append, List.flatMap_singleton, List.length_append, move]
  rw [List.range_eq_range', ← List.range'_append_1, List.filter_append, Nat.zero_add, hnew, ← List.range_eq_range']

theorem unfinished_snoc (jobs : List (Fnc × Arg)) (es : List (Event Fnc Arg)) (e : Event Fnc Arg) :
    unfinished jobs (es ++ [e]) =
      if e.does.returns then (notReturned jobs (es ++ [e]) es).filter (· ≠ e.job)
      else notReturned jobs (es ++ [e]) es := by
  unfold unfinished notReturned
  rw [finished_snoc]
  cases e.does.returns with
  | false => simp
  | true =>
    rw [if_pos rfl, if_pos rfl, List.filter_filter]
    apply List.filter_congr
    intro a _
    simp [and_comm]

theorem nodup_notReturned (jobs : List (Fnc × Arg)) (es fs : List (Event Fnc Arg)) : (notReturned jobs es fs).Nodup :=
  List.nodup_range.filter _

theorem Board.queue_append (h : Board jobs es (some t)) (e : Event Fnc Arg) :
    t.queue ++ (move (created jobs es).length e).joins = notReturned jobs (es ++ [e]) es := by
  rw [notReturned_snoc e h.known, ← h.queue_eq]
  rfl

/-- The step: the queue stays the list of unfinished jobs. -/
theorem board_next (h : Board jobs es (some t)) (hj : e.job = t.cur) :
    Board jobs (es ++ [e]) (t.next (move (created jobs es).length e)) := by
  have hq := h.queue_append e
  have hcur : t.cur ∈ unfinished jobs es := h.queue_eq ▸ (by simp [queue, Turn.queue])
  have hlt : t.cur < (created jobs es).length := List.mem_range.1 (List.mem_filter.1 hcur).1
  refine ⟨?_, ?_⟩
  · rw [unfinished_snoc, ← hq, queue_next, hj]
    cases hr : e.does.returns with
    | false => simp [Turn.passed, Turn.queue, move, hr]
    | true =>
      have hd : (t.queue ++ (move (created jobs es).length e).joins).Nodup := hq ▸ nodup_notReturned ..
      have hd : (t.before ++ t.cur :: (t.after ++ (move (created jobs es).length e).joins)).Nodup := by
        simpa [Turn.queue] using hd
      rw [List.nodup_middle, List.nodup_cons] at hd
      have hne : ∀ a ∈ t.before ++ (t.after ++ (move (created jobs es).length e).joins), a ≠ t.cur := by
        intro a ha e
        exact hd.1 (e ▸ ha)
      have hp : t.passed (move (created jobs es).length e) = t.before := by simp [Turn.passed, move, hr]
      rw [hp, if_pos rfl, Turn.queue, List.append_assoc, List.cons_append, List.filter_append,
        List.filter_cons_of_neg (by simp), ← List.filter_append]
      exact (List.filter_eq_self.2 fun a ha => decide_eq_true (hne a ha)).symm
  · intro a ha
    rw [created_append, List.length_append]
    rw [finished_snoc, List.mem_append] at ha
    rcases ha with ha | ha
    · have := h.known a ha
      omega
    · split at ha
      · rw [List.mem_singleton.1 ha, hj]
        omega
      · cases ha

/-! ## Traces -/

/-- Slices given out by the round robin: from the turn `o`, after the slices `es`, to the turn
    `o'`. Each is the next slice of the job whose turn it is. -/
inductive Trace (jobs : List (Fnc × Arg)) :
    List (Event Fnc Arg) → Option (Turn Nat) → List (Event Fnc Arg) → Option (Turn Nat) → Prop
  | nil (es : List (Event Fnc Arg)) (o : Option (Turn Nat)) : Trace jobs es o [] o
  | cons {es r : List (Event Fnc Arg)} {t : Turn Nat} {o' : Option (Turn Nat)} (e : Event Fnc Arg)
      (job : e.job = t.cur) (code : (created jobs es)[e.job]? = some (e.fnc, e.arg)) (slice : e.slice = ran es e.job)
      (rest : Trace jobs (es ++ [e]) (t.next (move (created jobs es).length e)) r o') :
      Trace jobs es (some t) (e :: r) o'

/-- The jobs dispatched: those of the slices that were run, and the one that is to go on. -/
def dispatched (es : List (Event Fnc Arg)) (next : Option Nat) : List Nat := es.map Event.job ++ next.toList

def moves : Nat → List (Event Fnc Arg) → List (Move Nat)
  | _, [] => []
  | n, e :: es => move n e :: moves (n + e.does.creates.length) es

theorem joins_moves (n : Nat) (es : List (Event Fnc Arg)) :
    (moves n es).flatMap Move.joins = List.range' n (es.flatMap (·.does.creates)).length := by
  induction es generalizing n with
  | nil => rfl
  | cons e es ih =>
    rw [moves, List.flatMap_cons, ih, List.flatMap_cons, List.length_append]
    exact List.range'_append_1

/-- The jobs dispatched in a trace are those whose turn it is. -/
theorem trace_turns (h : Trace jobs es o es' o') :
    dispatched es' (o'.map Turn.cur) = turns (moves (created jobs es).length es') o := by
  induction h with
  | nil es o => cases o <;> rfl
  | @cons es r t o' e job code slice rest ih =>
    rw [created_append, List.flatMap_singleton, List.length_append] at ih
    calc dispatched (e :: r) (o'.map Turn.cur) = e.job :: dispatched r (o'.map Turn.cur) := rfl
      _ = t.cur :: turns (moves ((created jobs es).length + e.does.creates.length) r)
            (t.next (move (created jobs es).length e)) := by rw [job, ih]

theorem head?_dispatched (h : Trace jobs es o es' o') : (dispatched es' (o'.map Turn.cur)).head? = o.map Turn.cur := by
  cases h with
  | nil => cases o <;> rfl
  | cons d job => exact congrArg some job

/-- A trace stopped at one of its slices. -/
theorem trace_split {l r : List (Event Fnc Arg)} (h : Trace jobs es o (l ++ e :: r) o') (hb : Board jobs es o) :
    ∃ t, Board jobs (es ++ l) (some t) ∧ e.job = t.cur ∧
      (created jobs (es ++ l))[e.job]? = some (e.fnc, e.arg) ∧ e.slice = ran (es ++ l) e.job ∧
      Trace jobs (es ++ l ++ [e]) (t.next (move (created jobs (es ++ l)).length e)) r o' := by
  induction l generalizing es o with
  | nil =>
    cases h with
    | @cons _ _ t _ _ job code slice rest =>
      refine ⟨t, ?_, job, ?_, ?_, ?_⟩ <;> rw [List.append_nil] <;> assumption
  | cons d l ih =>
    cases h with
    | cons _ job code slice rest =>
      have := ih rest (board_next hb job)
      simpa only [List.append_assoc, List.singleton_append] using this

theorem trace_board (h : Trace jobs es o es' o') (hb : Board jobs es o) : Board jobs (es ++ es') o' := by
  induction h with
  | nil => rwa [List.append_nil]
  | cons e job code slice rest ih => simpa using ih (board_next hb job)

/-! ## What every trace does -/

variable {l r : List (Event Fnc Arg)}

/-- After a slice the successor of its job is dispatched, among the jobs that had not returned
    before the slice ended; nobody when all have. -/
theorem trace_next (h : Trace jobs [] o (l ++ e :: r) o') (hb : Board jobs [] o) :
    (dispatched r (o'.map Turn.cur)).head? =
      if unfinished jobs (l ++ [e]) = [] then none else successor (notReturned jobs (l ++ [e]) l) e.job := by
  obtain ⟨t, hbt, hj, -, -, ht⟩ := trace_split h hb
  rw [List.nil_append] at hbt ht
  have hd : (t.queue).Nodup := by
    rw [show t.queue = unfinished jobs l from hbt.queue_eq]
    exact nodup_notReturned ..
  have hc : t.cur ∉ t.before := by
    intro hm
    rw [Turn.queue, List.nodup_middle, List.nodup_cons] at hd
    exact hd.1 (List.mem_append_left _ hm)
  rw [head?_dispatched ht, cur_next hc, (board_next hbt hj).queue_eq, hbt.queue_append, hj]

/-- The queue, with all who join it later, has nobody twice. -/
theorem Board.nodup (h : Board jobs es (some t)) (es' : List (Event Fnc Arg)) :
    (t.queue ++ (moves (created jobs es).length es').flatMap Move.joins).Nodup := by
  rw [joins_moves, show t.queue = unfinished jobs es from h.queue_eq]
  apply List.Nodup.append (nodup_notReturned ..) List.nodup_range'
  intro a ha hr
  have h1 := List.mem_range.1 (List.mem_filter.1 ha).1
  have h2 := (List.mem_range'_1.1 hr).1
  omega

/-- Between two slices of a job every other unfinished job has exactly one. -/
theorem trace_once {mid rest : List Nat} {y : Nat} (h : Trace jobs [] o (l ++ e :: r) o') (hb : Board jobs [] o)
    (hr : dispatched r (o'.map Turn.cur) = mid ++ e.job :: rest) (hm : e.job ∉ mid)
    (hy : y ∈ unfinished jobs (l ++ [e])) (hne : y ≠ e.job) : mid.count y = 1 := by
  obtain ⟨t, hbt, hj, -, -, ht⟩ := trace_split h hb
  rw [List.nil_append] at hbt ht
  have hts := trace_turns ht
  rw [created_append, List.flatMap_singleton, List.length_append, hr] at hts
  rw [← (board_next hbt hj).queue_eq] at hy
  rw [hj] at hts hm hne
  exact count_eq_one (hbt.nodup (e :: r)) hts.symm hm hy hne

/-- A job that has returned is not dispatched again. -/
theorem trace_returned (h : Trace jobs [] o (l ++ e :: r) o') (hb : Board jobs [] o) (hr : e.does.returns = true) :
    e.job ∉ dispatched r (o'.map Turn.cur) := by
  intro hm
  obtain ⟨t, hbt, hj, -, -, ht⟩ := trace_split h hb
  rw [List.nil_append] at hbt ht
  rw [trace_turns ht, hj, created_append, List.flatMap_singleton, List.length_append] at hm
  have hd := hbt.nodup (e :: r)
  rw [moves, List.flatMap_cons, ← List.append_assoc] at hd
  have hq : t.cur ∈ t.queue ++ (move (created jobs l).length e).joins := by simp [Turn.queue]
  have hstays := leaves_eq_false (by simpa [Turn.queue] using hd.of_append_left)
    (List.disjoint_of_nodup_append hd hq) hm
  rw [move, hr] at hstays
  cases hstays

/-- The slices of a job are run in order, each once. -/
theorem trace_in_order (h : Trace jobs [] o es o') (hb : Board jobs [] o) (x : Nat) :
    (es.filter (·.job = x)).map Event.slice = List.range (ran es x) := by
  have hs : ∀ l e r, es = l ++ e :: r → e.slice = ran l e.job := by
    intro l e r e'
    subst e'
    obtain ⟨t, -, -, -, hs, -⟩ := trace_split h hb
    simpa using hs
  clear h
  induction es using List.reverseRecOn with
  | nil => rfl
  | append_singleton es e ih =>
    have ih := ih fun l d r hd => hs l d (r ++ [e]) (by rw [hd]; simp)
    rw [List.filter_append, List.map_append, ih, ran_snoc]
    by_cases hx : e.job = x
    · rw [if_pos hx, List.range_succ, ← hx, List.filter_cons_of_pos (by simp), List.filter_nil, List.map_singleton,
        hs es e [] rfl]
    · rw [if_neg hx, List.filter_cons_of_neg (by simpa using hx)]
      simp

/-- A slice is one of the code the job was created with. -/
theorem trace_code (h : Trace jobs [] o es o') (hb : Board jobs [] o) (he : e ∈ es) :
    (created jobs es)[e.job]? = some (e.fnc, e.arg) := by
  obtain ⟨l, r, rfl⟩ := List.append_of_mem he
  obtain ⟨t, -, -, hc, -⟩ := trace_split h hb
  rw [List.nil_append] at hc
  rw [created_append]
  exact List.getElem?_append_left (List.getElem?_eq_some_iff.1 hc).1 ▸ hc

end Cs238p.Sched
