/-
  Cs238p.Sched.RoundRobin — the scheduler is a round robin over its unfinished jobs.

  `Sim`: the state when a job has been dispatched, as a turn in a queue. The jobs of the
  queue are linked in its order from `head`, `curr` is the one whose turn it is and `prev`
  the one before it, NULL at the head; each job waits at its start or where it yielded last,
  and every other job is freed (`Mem`). `scheduler_create` lets a job join (`create_sim`),
  and `scheduler_execute` finds the next turn from any place in the queue, `curr` being the
  last job before that place (`dispatch_sim`). So a job that yields and one that finishes
  leave the same thing to do: `slice_sim`, and for a run `run_trace`.

  Proved: `takes_turns` — for any jobs and any slices the run is without error and a round
  robin, every job that was created has returned when `scheduler_execute` does, and no job
  that has returned is in memory.
-/
import Cs238p.Lib.LinkedList
import Cs238p.Lib.Outcome
import Cs238p.Sched.Turns
import Mathlib.Data.List.Perm.Subperm

namespace Cs238p.Sched

open RoundRobin LinkedList

variable {Fnc Arg : Type} {made : List (Fnc × Arg)} {runs runs' : Nat → Nat} {q as bs : List Nat}
  {cur cur' : Option Nat} {s s' : St Fnc Arg} {a c : Nat} {j j' : Job Fnc Arg}

/-! ## The jobs in memory -/

def links (s : St Fnc Arg) (a : Nat) : Option (Option Nat) := (s.jobs a).map Job.next

/-- `j` can be dispatched as job `a`, which has run `n` slices. -/
def Ready (n a : Nat) (j : Job Fnc Arg) : Prop :=
  if n = 0 then j.status = 0 else j.status = 1 ∧ j.env = some ⟨a, j.fnc, j.arg, n⟩

/-- Exactly the jobs of `q` are in memory, each with its code and stack, and all but the one
    that is running, `cur`, are ready. -/
structure Mem (made : List (Fnc × Arg)) (runs : Nat → Nat) (q : List Nat) (cur : Option Nat) (s : St Fnc Arg) :
    Prop where
  mallocs : s.mallocs = made.length
  nodup : q.Nodup
  cur_mem : ∀ c, cur = some c → c ∈ q
  runs_new : ∀ a, made.length ≤ a → runs a = 0
  none_of_notMem : ∀ a, a ∉ q → s.jobs a = none
  stackUsed : ∀ a, s.stackUsed a = true ↔ a ∈ q
  job : ∀ a ∈ q, ∃ j, s.jobs a = some j ∧ j.startAddr = a ∧ made[a]? = some (j.fnc, j.arg) ∧
    if cur = some a then j.status = 1 else Ready (runs a) a j

theorem sch_eq {sc : Scheduler} (h : s.schObj = .live sc) : sch s = .ok sc := by simp only [sch, h]

theorem links_update (s : St Fnc Arg) (a : Nat) (j : Job Fnc Arg) :
    links { s with jobs := Function.update s.jobs a (some j) } = Function.update (links s) a (some j.next) := by
  funext b
  by_cases h : b = a
  · subst h
    simp [links]
  · simp [links, h]

theorem deref_of_links {p : Option Nat} (h : links s a = some p) : ∃ j, deref s (some a) = .ok j ∧ s.jobs a = some j ∧
    j.next = p := by
  obtain ⟨j, hj, hn⟩ := Option.map_eq_some_iff.1 h
  exact ⟨j, by simp only [deref, hj], hj, hn⟩

/-- Only the jobs, their stacks and their number matter. -/
theorem Mem.congr (h : Mem made runs q cur s) (hj : s'.jobs = s.jobs) (hs : s'.stackUsed = s.stackUsed)
    (hm : s'.mallocs = s.mallocs) : Mem made runs q cur s' := by
  refine ⟨hm.trans h.mallocs, h.nodup, h.cur_mem, h.runs_new, ?_, ?_, ?_⟩
  · rw [hj]
    exact h.none_of_notMem
  · rw [hs]
    exact h.stackUsed
  · rw [hj]
    exact h.job

theorem Mem.lt (h : Mem made runs q cur s) (ha : a ∈ q) : a < made.length := by
  obtain ⟨j, -, -, hm, -⟩ := h.job a ha
  exact (List.getElem?_eq_some_iff.1 hm).1

/-- The next address is fresh. -/
theorem Mem.mallocs_notMem (h : Mem made runs q cur s) : s.mallocs ∉ q := by
  intro hn
  have := h.lt hn
  rw [h.mallocs] at this
  omega

theorem Mem.length_le (h : Mem made runs q cur s) : q.length ≤ made.length := by
  have hs : q ⊆ List.range made.length := fun a ha => List.mem_range.2 (h.lt ha)
  simpa using (List.Nodup.subperm h.nodup hs).length_le

/-- One job is written: what it says stays, and who is running and what has been run change
    for this job only. -/
theorem Mem.set (h : Mem made runs q cur s) (j' : Job Fnc Arg) (ha : a ∈ q) (hj : s.jobs a = some j)
    (hsame : j'.startAddr = j.startAddr ∧ j'.fnc = j.fnc ∧ j'.arg = j.arg)
    (hready : if cur' = some a then j'.status = 1 else Ready (runs' a) a j')
    (hcur : ∀ b, b ≠ a → (cur' = some b ↔ cur = some b)) (hruns : ∀ b, b ≠ a → runs' b = runs b) :
    Mem made runs' q cur' { s with jobs := Function.update s.jobs a (some j') } := by
  obtain ⟨hstart, hfnc, harg⟩ := hsame
  have hlt := h.lt ha
  constructor
  case mallocs => exact h.mallocs
  case nodup => exact h.nodup
  case cur_mem =>
    intro c hc
    by_cases e : c = a
    · exact e ▸ ha
    · exact h.cur_mem c ((hcur c e).1 hc)
  case runs_new =>
    intro b hb
    rw [hruns b (by omega)]
    exact h.runs_new b hb
  case none_of_notMem =>
    intro b hb
    have hne : b ≠ a := fun e => hb (e ▸ ha)
    exact (Function.update_of_ne hne ..).trans (h.none_of_notMem b hb)
  case stackUsed => exact h.stackUsed
  case job =>
    intro b hb
    obtain ⟨i, hi, hia, him, hir⟩ := h.job b hb
    by_cases e : b = a
    · subst e
      obtain rfl : i = j := Option.some.inj (hi.symm.trans hj)
      exact ⟨j', Function.update_self .., hstart.trans hia, by rw [hfnc, harg]; exact him, hready⟩
    · refine ⟨i, (Function.update_of_ne e ..).trans hi, hia, him, ?_⟩
      simpa only [hcur b e, hruns b e] using hir

/-- A link does not matter here. -/
theorem Mem.setNext (h : Mem made runs q cur s) (ha : a ∈ q) (hj : s.jobs a = some j) (p : Option Nat) :
    Mem made runs q cur { s with jobs := Function.update s.jobs a (some { j with next := p }) } := by
  obtain ⟨i, hi, -, -, hr⟩ := h.job a ha
  obtain rfl : i = j := Option.some.inj (hi.symm.trans hj)
  refine h.set _ ha hj ⟨rfl, rfl, rfl⟩ hr ?_ ?_
  · intro b _
    exact Iff.rfl
  · intro b _
    rfl

/-- A new job. -/
theorem Mem.create (h : Mem made runs q cur s) (fnc : Fnc) (arg : Arg) :
    Mem (made ++ [(fnc, arg)]) runs (q ++ [s.mallocs]) cur (newJob fnc arg s) := by
  have hn : s.mallocs ∉ q := h.mallocs_notMem
  constructor
  case mallocs => simp [newJob, h.mallocs]
  case nodup => exact List.nodup_append'.2 ⟨h.nodup, List.nodup_singleton _, by simpa using hn⟩
  case cur_mem =>
    intro c hc
    exact List.mem_append_left _ (h.cur_mem c hc)
  case runs_new =>
    intro a ha
    rw [List.length_append] at ha
    exact h.runs_new a (by omega)
  case none_of_notMem =>
    intro a ha
    rw [List.mem_append, List.mem_singleton, not_or] at ha
    exact (Function.update_of_ne ha.2 ..).trans (h.none_of_notMem a ha.1)
  case stackUsed =>
    intro a
    rw [List.mem_append, List.mem_singleton]
    by_cases e : a = s.mallocs
    · simp [newJob, e]
    · simpa [newJob, e] using h.stackUsed a
  case job =>
    intro a ha
    rcases List.mem_append.1 ha with ha | ha
    · obtain ⟨j, hj, hs, hm, hr⟩ := h.job a ha
      have hne : a ≠ s.mallocs := fun e => hn (e ▸ ha)
      have hma : (made ++ [(fnc, arg)])[a]? = made[a]? := List.getElem?_append_left (h.lt ha)
      exact ⟨j, (Function.update_of_ne hne ..).trans hj, hs, hma.trans hm, hr⟩
    · obtain rfl := List.mem_singleton.1 ha
      have hcur : cur ≠ some s.mallocs := fun e => hn (h.cur_mem _ e)
      refine ⟨_, Function.update_self .., rfl, by simp [h.mallocs], ?_⟩
      rw [if_neg hcur, Ready, if_pos (h.runs_new _ (Nat.le_of_eq h.mallocs.symm))]

/-- The running job is freed. -/
theorem Mem.free (h : Mem made runs (bs ++ c :: as) (some c) s) (hruns : ∀ b, b ≠ c → runs' b = runs b) :
    Mem made runs' (bs ++ as) none
      { s with jobs := Function.update s.jobs c none, stackUsed := Function.update s.stackUsed c false } := by
  have hlt : c < made.length := h.lt (by simp)
  have hd := h.nodup
  rw [List.nodup_middle, List.nodup_cons] at hd
  have hmem : ∀ b, b ∈ bs ++ c :: as ↔ b = c ∨ b ∈ bs ++ as := fun b => by simp [or_left_comm]
  constructor
  case mallocs => exact h.mallocs
  case nodup => exact hd.2
  case cur_mem =>
    intro b hb
    cases hb
  case runs_new =>
    intro b hb
    rw [hruns b (by omega)]
    exact h.runs_new b hb
  case none_of_notMem =>
    intro b hb
    by_cases e : b = c
    · exact e ▸ Function.update_self ..
    · exact (Function.update_of_ne e ..).trans (h.none_of_notMem b fun hm => ((hmem b).1 hm).elim e hb)
  case stackUsed =>
    intro b
    by_cases e : b = c
    · subst e
      simpa using hd.1
    · have := (h.stackUsed b).trans ((hmem b).trans (or_iff_right e))
      simpa [e] using this
  case job =>
    intro b hb
    have e : b ≠ c := fun e => hd.1 (e ▸ hb)
    obtain ⟨i, hi, hs, hm, hr⟩ := h.job b ((hmem b).2 (Or.inr hb))
    rw [if_neg fun hc => e (Option.some.inj hc).symm] at hr
    exact ⟨i, (Function.update_of_ne e ..).trans hi, hs, hm, by simpa [hruns b e] using hr⟩

theorem freeJob_eq (h : Mem made runs q cur s) (ha : a ∈ q) :
    freeJob (some a) s =
      .ok { s with jobs := Function.update s.jobs a none, stackUsed := Function.update s.stackUsed a false } := by
  obtain ⟨j, hj, hs, -⟩ := h.job a ha
  subst hs
  simp only [freeJob, hj, if_pos ((h.stackUsed _).2 ha)]

theorem modify_eq (f : Job Fnc Arg → Job Fnc Arg) (hj : s.jobs a = some j) :
    modify (some a) f s = .ok { s with jobs := Function.update s.jobs a (some (f j)) } := by
  simp only [modify, hj]

/-! ## A turn -/

/-- What `scheduler_execute` left when it dispatched the turn `o`: the processor has the next
    slice of its job, or `main` when nobody is left. -/
def Control (made : List (Fnc × Arg)) (runs : Nat → Nat) (s : St Fnc Arg) : Option (Turn Nat) → Prop
  | none => s.schObj = .freed ∧ s.cpu = .main
  | some t => s.schObj = .live ⟨true, t.queue.head?, some t.cur, t.before.getLast?⟩ ∧
      ∃ fnc arg, made[t.cur]? = some (fnc, arg) ∧ s.cpu = .job ⟨t.cur, fnc, arg, runs t.cur⟩

structure Sim (made : List (Fnc × Arg)) (runs : Nat → Nat) (o : Option (Turn Nat)) (s : St Fnc Arg) : Prop where
  mem : Mem made runs (queue o) (o.map Turn.cur) s
  linked : Linked (links s) (queue o)
  control : Control made runs s o

/-! ## `scheduler_create` -/

theorem findLast_eq {l : Nat} {fuel : Nat} (h : Linked (links s) (as ++ [l])) (ha : (as ++ [l]).head? = some a)
    (hf : as.length < fuel) : findLast s fuel a = .ok l := by
  induction as generalizing a fuel with
  | nil =>
    obtain ⟨fuel, rfl⟩ : ∃ n, fuel = n + 1 := ⟨fuel - 1, by omega⟩
    obtain rfl : l = a := Option.some.inj ha
    obtain ⟨j, hd, -, hn⟩ := deref_of_links h.1
    simp [findLast, hd, hn]
  | cons b as ih =>
    rw [List.length_cons] at hf
    obtain ⟨fuel, rfl⟩ : ∃ n, fuel = n + 1 := ⟨fuel - 1, by omega⟩
    obtain rfl : b = a := Option.some.inj ha
    obtain ⟨j, hd, -, hn⟩ := deref_of_links h.1
    obtain ⟨n, hn'⟩ : ∃ n, (as ++ [l]).head? = some n := by cases as <;> exact ⟨_, rfl⟩
    have := ih h.2 hn' (by omega : as.length < fuel)
    simpa [findLast, hd, hn, hn'] using this

theorem links_newJob (fnc : Fnc) (arg : Arg) (s : St Fnc Arg) :
    links (newJob fnc arg s) = Function.update (links s) s.mallocs (some none) :=
  links_update s s.mallocs _

/-- A job is created: it joins the queue at its end. -/
theorem create_sim {sch : Scheduler} (hm : Mem made runs q cur s) (hl : Linked (links s) q)
    (hs : s.schObj = .live sch) (hh : sch.head = q.head?) (fnc : Fnc) (arg : Arg) :
    ∃ s', schedulerCreate fnc arg s = .ok (0, s') ∧ Mem (made ++ [(fnc, arg)]) runs (q ++ [made.length]) cur s' ∧
      Linked (links s') (q ++ [made.length]) ∧
      s'.schObj = .live { sch with head := (q ++ [made.length]).head? } ∧ s'.cpu = s.cpu := by
  have hm1 := hm.create fnc arg
  have hn : s.mallocs ∉ q := hm.mallocs_notMem
  have hl1 := links_newJob fnc arg s
  have hs1 : (newJob fnc arg s).schObj = s.schObj := rfl
  have hnew : Linked (links (newJob fnc arg s)) [s.mallocs] := ⟨by rw [hl1, Function.update_self]; rfl, linked_nil⟩
  rw [← hm.mallocs]
  simp only [schedulerCreate, hs]
  rcases List.eq_nil_or_concat q with rfl | ⟨as, l, rfl⟩
  · -- the first job of the queue
    rw [hh]
    exact ⟨_, rfl, hm1.congr rfl rfl rfl, hnew, rfl, rfl⟩
  · rw [List.concat_eq_append] at *
    obtain ⟨h, hh'⟩ : ∃ h, (as ++ [l]).head? = some h := by cases as <;> exact ⟨_, rfl⟩
    have hold : Linked (links (newJob fnc arg s)) (as ++ [l]) := hl.congr fun a ha => by
      rw [hl1]
      exact Function.update_of_ne (fun e : a = s.mallocs => hn (e ▸ ha)) ..
    have hlen := hm.length_le
    rw [List.length_append, List.length_singleton, ← hm.mallocs] at hlen
    have hlast : findLast (newJob fnc arg s) (newJob fnc arg s).mallocs h = .ok l :=
      findLast_eq hold hh' (show as.length < s.mallocs + 1 by omega)
    obtain ⟨i, -, hi, -⟩ := deref_of_links hold.next_eq
    rw [hh, hh']
    simp only [hlast, ok_bind, modify_eq _ hi]
    have hd := hm1.nodup
    rw [List.append_assoc, List.singleton_append, List.nodup_middle, List.nodup_cons, List.mem_append, not_or] at hd
    refine ⟨_, rfl, hm1.setNext (by simp) hi _, ?_, ?_, rfl⟩
    · rw [links_update]
      simpa using hold.relink hnew hd.1.1 hd.1.2
    · have : (as ++ [l] ++ [s.mallocs]).head? = sch.head := by rw [List.head?_append, hh', hh, hh']; rfl
      rw [this]
      exact hs1.trans hs

/-- Some jobs are created. -/
theorem createAll_sim {sch : Scheduler} (cs : List (Fnc × Arg)) (hm : Mem made runs q cur s) (hl : Linked (links s) q)
    (hs : s.schObj = .live sch) (hh : sch.head = q.head?) :
    ∃ s', createAll cs s = .ok s' ∧ Mem (made ++ cs) runs (q ++ List.range' made.length cs.length) cur s' ∧
      Linked (links s') (q ++ List.range' made.length cs.length) ∧
      s'.schObj = .live { sch with head := (q ++ List.range' made.length cs.length).head? } ∧ s'.cpu = s.cpu := by
  induction cs generalizing made q s sch with
  | nil =>
    refine ⟨s, rfl, by simpa using hm, by simpa using hl, ?_, rfl⟩
    rw [hs, List.length_nil, List.range'_zero, List.append_nil, ← hh]
  | cons c cs ih =>
    obtain ⟨fnc, arg⟩ := c
    obtain ⟨s1, hc, hm1, hl1, hs1, hcpu1⟩ := create_sim hm hl hs hh fnc arg
    obtain ⟨s2, hcs, hm2, hl2, hs2, hcpu2⟩ := ih hm1 hl1 hs1 rfl
    have hr : q ++ List.range' made.length (cs.length + 1)
        = q ++ [made.length] ++ List.range' (made.length + 1) cs.length := by
      simp [List.range'_succ]
    rw [List.length_append, List.length_singleton, ← hr] at hm2 hl2 hs2
    refine ⟨s2, ?_, by simpa using hm2, hl2, hs2, hcpu2.trans hcpu1⟩
    simp only [createAll, hc, ok_bind]
    exact hcs

/-! ## `scheduler_execute` -/

/-- The next job and the one before it, `curr` being the last before the next turn's place. -/
theorem choose_eq {p : Option Nat} (hl : Linked (links s) (bs ++ as)) :
    choose s ⟨true, (bs ++ as).head?, bs.getLast?, p⟩ =
      .ok ((Turn.pass bs as).map Turn.cur, (Turn.pass bs as).bind (·.before.getLast?)) := by
  rcases List.eq_nil_or_concat bs with rfl | ⟨bs, b, rfl⟩
  · cases as <;> rfl
  · rw [List.concat_eq_append] at *
    rw [List.append_assoc, List.singleton_append] at hl
    obtain ⟨j, hd, -, hn⟩ := deref_of_links hl.next_eq
    cases as with
    | nil =>
      obtain ⟨h, t, ht⟩ : ∃ h t, bs ++ [b] = h :: t := by cases bs <;> exact ⟨_, _, rfl⟩
      have hp : Turn.pass (bs ++ [b]) [] = some ⟨[], h, t⟩ := by rw [Turn.pass, ht]; rfl
      rw [List.append_nil, List.getLast?_concat, hp, ht]
      simp [choose, hd, hn]
    | cons c as => simp [choose, hd, hn, Turn.pass]

/-- The job whose turn it is is given the processor. -/
theorem enter_sim {t : Turn Nat} (hm : Mem made runs t.queue none s) (hl : Linked (links s) t.queue)
    (hs : s.schObj = .live ⟨true, t.queue.head?, some t.cur, t.before.getLast?⟩) :
    ∃ s', enter (some t.cur) s = .ok s' ∧ Sim made runs (some t) s' := by
  have hmem : t.cur ∈ t.queue := by simp [Turn.queue]
  obtain ⟨j, hj, hsj, hmj, hr⟩ := hm.job t.cur hmem
  have hd : deref s (some t.cur) = .ok j := by simp only [deref, hj]
  have hst : s.stackUsed t.cur = true := (hm.stackUsed _).2 hmem
  have hcur : ∀ b, b ≠ t.cur → (some t.cur = some b ↔ none = some b) := by
    intro b hb
    simp [Ne.symm hb]
  rw [if_neg (by simp), Ready] at hr
  by_cases h0 : runs t.cur = 0
  · -- the job has not been started
    rw [if_pos h0] at hr
    have hset := hm.set { j with status := 1 } hmem hj ⟨rfl, rfl, rfl⟩ (by simp) hcur fun _ _ => rfl
    have hlinks := links_update s t.cur { j with status := 1 }
    rw [show some j.next = links s t.cur by simp [links, hj], Function.update_eq_self] at hlinks
    simp only [enter, hd, ok_bind, if_pos hr, modify_eq _ hj]
    refine ⟨_, if_pos (by rw [hsj]; exact hst), ⟨hset.congr rfl rfl rfl, ?_, hs, j.fnc, j.arg, hmj, ?_⟩⟩
    · exact hl.congr fun a _ => congrFun hlinks a
    · rw [hsj, h0]
  · -- it goes on where it yielded
    rw [if_neg h0] at hr
    obtain ⟨h1, henv⟩ := hr
    have hset := hm.set j hmem hj ⟨rfl, rfl, rfl⟩ (by simpa using h1) hcur fun _ _ => rfl
    rw [← hj, Function.update_eq_self] at hset
    simp only [enter, hd, ok_bind, h1, henv]
    exact ⟨_, if_pos hst, hset.congr rfl rfl rfl, hl, hs, j.fnc, j.arg, hmj, rfl⟩

/-- `scheduler_execute` finds the next turn. -/
theorem dispatch_sim {sc : Scheduler} (hm : Mem made runs (bs ++ as) none s) (hl : Linked (links s) (bs ++ as))
    (hs : s.schObj = .live sc) (henv : sc.env = true) (hhead : sc.head = (bs ++ as).head?)
    (hcurr : sc.curr = bs.getLast?) : ∃ s', dispatch s = .ok s' ∧ Sim made runs (Turn.pass bs as) s' := by
  obtain ⟨env, head, curr, prev⟩ := sc
  simp only at henv hhead hcurr
  subst henv hhead hcurr
  simp only [dispatch, sch_eq hs, ok_bind, choose_eq hl]
  have hq := queue_pass bs as
  cases ho : Turn.pass bs as with
  | none =>
    rw [ho] at hq
    rw [← hq] at hm hl
    exact ⟨_, rfl, ⟨hm.congr rfl rfl rfl, hl, rfl, rfl⟩⟩
  | some t =>
    rw [ho] at hq
    rw [← hq] at hm hl ⊢
    exact enter_sim (hm.congr rfl rfl rfl) hl rfl

/-! ## The end of a slice -/

variable {t : Turn Nat}

/-- `longjmp (sch_obj->env, 1)` from a job. -/
theorem jump_sim {sc : Scheduler} (hm : Mem made runs (bs ++ as) none s) (hl : Linked (links s) (bs ++ as))
    (hs : s.schObj = .live sc) (henv : sc.env = true) (hhead : sc.head = (bs ++ as).head?)
    (hcurr : sc.curr = bs.getLast?) : ∃ s', jump s = .ok s' ∧ Sim made runs (Turn.pass bs as) s' := by
  obtain ⟨s', hd, h⟩ := dispatch_sim hm hl hs henv hhead hcurr
  refine ⟨s', ?_, h⟩
  simp only [jump, sch_eq hs, ok_bind, henv, if_true]
  exact hd

/-- The running job yields. -/
theorem yield_sim {p : Option Nat} {fnc : Fnc} {arg : Arg} (hm : Mem made runs (bs ++ c :: as) (some c) s)
    (hl : Linked (links s) (bs ++ c :: as)) (hs : s.schObj = .live ⟨true, (bs ++ c :: as).head?, some c, p⟩)
    (hc : made[c]? = some (fnc, arg)) (hrun : runs' c = runs c + 1) (hruns : ∀ b, b ≠ c → runs' b = runs b) :
    ∃ s', schedulerYield ⟨c, fnc, arg, runs c⟩ s = .ok s' ∧ Sim made runs' (Turn.pass (bs ++ [c]) as) s' := by
  have hmem : c ∈ bs ++ c :: as := by simp
  obtain ⟨j, hj, hsj, hmj, hr⟩ := hm.job c hmem
  rw [if_pos rfl] at hr
  obtain ⟨rfl, rfl⟩ : j.fnc = fnc ∧ j.arg = arg := by simpa using hmj.symm.trans hc
  set j' : Job Fnc Arg := { j with env := some ⟨c, j.fnc, j.arg, runs c + 1⟩ } with hj'
  have hready : if none = some c then j'.status = 1 else Ready (runs' c) c j' := by
    rw [if_neg (by simp), Ready, hrun, if_neg (by omega)]
    exact ⟨hr, rfl⟩
  have hcur : ∀ b, b ≠ c → (none = some b ↔ some c = some b) := by
    intro b hb
    simp [Ne.symm hb]
  have hset := hm.set j' hmem hj ⟨rfl, rfl, rfl⟩ hready hcur hruns
  have hlinks := links_update s c j'
  rw [show some j'.next = links s c by simp [links, hj, hj'], Function.update_eq_self] at hlinks
  have hq : bs ++ c :: as = bs ++ [c] ++ as := by simp
  simp only [schedulerYield, sch_eq hs, ok_bind, modify_eq _ hj]
  rw [hq] at hset hl hs
  exact jump_sim hset (hl.congr fun a _ => congrFun hlinks a) hs rfl rfl List.getLast?_concat.symm

theorem Linked.free (h : Linked (links s) as) (hs : s'.jobs = Function.update s.jobs c none) (hc : c ∉ as) :
    Linked (links s') as := by
  apply h.congr
  intro a ha
  have hne : a ≠ c := fun e => hc (e ▸ ha)
  simp [links, hs, hne]

/-- The running job is unlinked and freed: `prev` is still the job before it, whoever joined
    since it was dispatched. -/
theorem finish_sim (hm : Mem made runs (bs ++ c :: as) (some c) s) (hl : Linked (links s) (bs ++ c :: as))
    (hs : s.schObj = .live ⟨true, (bs ++ c :: as).head?, some c, bs.getLast?⟩) (hruns : ∀ b, b ≠ c → runs' b = runs b) :
    ∃ s', finish s = .ok s' ∧ Sim made runs' (Turn.pass bs as) s' := by
  have hd := hm.nodup
  rw [List.nodup_middle, List.nodup_cons, List.mem_append, not_or] at hd
  obtain ⟨j, hdj, hj, hn⟩ := deref_of_links hl.next_eq
  have has : Linked (links s) as := by
    rw [List.append_cons] at hl
    exact hl.suffix
  rcases List.eq_nil_or_concat bs with rfl | ⟨bs, p, rfl⟩
  · -- the head
    have hfree := freeJob_eq hm (by simp : c ∈ [] ++ c :: as)
    simp only [finish, sch_eq hs, List.getLast?_nil, List.nil_append, List.head?_cons, hdj, ok_bind, hfree, hn]
    exact jump_sim (hm.free hruns |>.congr rfl rfl rfl) (Linked.free has rfl hd.1.2) rfl rfl rfl rfl
  · rw [List.concat_eq_append] at *
    have hp : p ∈ bs ++ [p] ++ c :: as := by simp
    obtain ⟨i, hi, -⟩ := hm.job p hp
    have hm1 := hm.setNext hp hi as.head?
    have hfree := freeJob_eq hm1 (by simp : c ∈ bs ++ [p] ++ c :: as)
    simp only [finish, sch_eq hs, List.getLast?_concat, hdj, ok_bind, modify_eq _ hi, hn, hfree]
    have hdp := hd.2
    rw [List.append_assoc, List.singleton_append, List.nodup_middle, List.nodup_cons, List.mem_append, not_or] at hdp
    rw [List.append_assoc, List.singleton_append] at hl
    have hl1 : Linked (links { s with jobs := Function.update s.jobs p (some { i with next := as.head? }) })
        (bs ++ p :: as) := by
      rw [links_update]
      exact hl.relink has hdp.1.1 hdp.1.2
    refine jump_sim (hm1.free hruns |>.congr rfl rfl rfl) ?_ rfl rfl ?_ List.getLast?_concat.symm
    · rw [show bs ++ [p] ++ as = bs ++ p :: as by simp]
      exact Linked.free hl1 rfl (by simpa [and_assoc] using hd.1)
    · cases bs <;> rfl

variable {jobs : List (Fnc × Arg)} {es : List (Event Fnc Arg)}

/-- One slice is one move. -/
theorem slice_sim {ctx : Ctx Fnc Arg} (h : Sim (created jobs es) (ran es) (some t) s) (hcpu : s.cpu = .job ctx)
    (e : Event Fnc Arg) (he : e.job = t.cur) :
    ∃ s', runSlice ctx e.does s = .ok s' ∧
      Sim (created jobs (es ++ [e])) (ran (es ++ [e])) (t.next (move (created jobs es).length e)) s' := by
  obtain ⟨hm, hl, hs, fnc, arg, hmade, hc⟩ := h
  obtain rfl : ctx = ⟨t.cur, fnc, arg, ran es t.cur⟩ := Cpu.job.inj (hcpu.symm.trans hc)
  obtain ⟨s1, hca, hm1, hl1, hs1, -⟩ := createAll_sim e.does.creates hm hl hs rfl
  have hq : queue (some t) ++ List.range' (created jobs es).length e.does.creates.length
      = t.before ++ t.cur :: (t.after ++ (move (created jobs es).length e).joins) := by
    simp [queue, Turn.queue, move]
  have hmade1 : (created jobs es ++ e.does.creates)[t.cur]? = some (fnc, arg) :=
    (List.getElem?_append_left (List.getElem?_eq_some_iff.1 hmade).1).trans hmade
  have hrun : ran (es ++ [e]) t.cur = ran es t.cur + 1 := by rw [ran_snoc, if_pos he]
  have hruns : ∀ b, b ≠ t.cur → ran (es ++ [e]) b = ran es b := by
    intro b hb
    rw [ran_snoc, he, if_neg (Ne.symm hb), Nat.add_zero]
  rw [hq] at hm1 hl1 hs1
  simp only [runSlice, hca, ok_bind]
  rw [created_append, List.flatMap_singleton, Turn.next]
  cases hr : e.does.returns with
  | false =>
    have hp : t.passed (move (created jobs es).length e) = t.before ++ [t.cur] := by simp [Turn.passed, move, hr]
    rw [hp]
    exact yield_sim hm1 hl1 hs1 hmade1 hrun hruns
  | true =>
    have hp : t.passed (move (created jobs es).length e) = t.before := by simp [Turn.passed, move, hr]
    rw [hp]
    exact finish_sim hm1 hl1 hs1 hruns

/-! ## Runs -/

/-- A run is a trace of the round robin. It goes on until `scheduler_execute` returns. -/
theorem run_trace {o : Option (Turn Nat)} (slices : List (Slice Fnc Arg))
    (h : Sim (created jobs es) (ran es) o s) :
    ∃ es' o' s', run slices s = .ok (es', s') ∧ Trace jobs es o es' o' ∧
      Sim (created jobs (es ++ es')) (ran (es ++ es')) o' s' ∧ es'.map Event.does = slices.take es'.length ∧
      (o' = none ∨ es'.length = slices.length) := by
  induction slices generalizing es o s with
  | nil => exact ⟨[], o, s, rfl, Trace.nil es o, by simpa using h, rfl, Or.inr rfl⟩
  | cons slice slices ih =>
    cases o with
    | none =>
      have hcpu : s.cpu = .main := h.control.2
      exact ⟨[], none, s, by rw [run, hcpu], Trace.nil es none, by simpa using h, rfl, Or.inl rfl⟩
    | some t =>
      obtain ⟨-, fnc, arg, hmade, hcpu⟩ := h.control
      obtain ⟨s1, hs1, h1⟩ := slice_sim h hcpu ⟨t.cur, fnc, arg, ran es t.cur, slice⟩ rfl
      obtain ⟨es', o', s', hrun, htrace, hsim, hdoes, hend⟩ := ih h1
      refine ⟨_ :: es', o', s', ?_, Trace.cons _ rfl hmade rfl htrace, by simpa using hsim, ?_, ?_⟩
      · simp only [run, hcpu, hs1, ok_bind, hrun]
      · simp [hdoes]
      · simpa using hend

/-- The jobs created before `scheduler_execute`, and its first turn. -/
theorem execute_sim (jobs : List (Fnc × Arg)) :
    ∃ s s', createAll jobs (schedulerInit start) = .ok s ∧ schedulerExecute s = .ok s' ∧
      Sim jobs (fun _ => 0) (Turn.first (List.range jobs.length)) s' := by
  have hm : Mem ([] : List (Fnc × Arg)) (fun _ => 0) [] none (schedulerInit start) := by
    refine ⟨rfl, List.nodup_nil, ?_, fun _ _ => rfl, fun _ _ => rfl, ?_, ?_⟩
    · intro c hc
      cases hc
    · intro a
      simp [schedulerInit, start]
    · intro a ha
      cases ha
  obtain ⟨s, hs, hm, hl, hsch, -⟩ := createAll_sim jobs hm linked_nil rfl rfl
  have hq : [] ++ List.range' ([] : List (Fnc × Arg)).length jobs.length = [] ++ List.range jobs.length := by
    rw [List.range_eq_range', List.length_nil]
  rw [hq] at hm hl hsch
  rw [List.nil_append] at hm
  have hm1 : Mem jobs (fun _ => 0) ([] ++ List.range jobs.length) none
      { s with schObj := .live { env := true, head := (List.range jobs.length).head?, curr := none, prev := none } } :=
    hm.congr rfl rfl rfl
  obtain ⟨s', hd, h⟩ := dispatch_sim hm1 hl rfl rfl rfl rfl
  rw [pass_nil] at h
  refine ⟨s, s', hs, ?_, h⟩
  simp only [schedulerExecute, sch_eq hsch, ok_bind]
  exact hd

/-- The job that has the processor. -/
def running (s : St Fnc Arg) : Option Nat :=
  match s.cpu with
  | .main => none
  | .job ctx => some ctx.stack

theorem Sim.running_eq {o : Option (Turn Nat)} (h : Sim made runs o s) : running s = o.map Turn.cur := by
  cases o with
  | none =>
    have hcpu : s.cpu = .main := h.control.2
    simp [running, hcpu]
  | some t =>
    obtain ⟨-, fnc, arg, -, hcpu⟩ := h.control
    simp [running, hcpu]

/-- What the round robin over the jobs promises: `es` are the slices that were run, and `s` is
    the state after them. -/
structure TakesTurns (jobs : List (Fnc × Arg)) (slices : List (Slice Fnc Arg)) (es : List (Event Fnc Arg))
    (s : St Fnc Arg) : Prop where
  /-- The slices are run as they come, each on its own job's code. -/
  slices_eq : es.map Event.does = slices.take es.length
  code : ∀ e ∈ es, (created jobs es)[e.job]? = some (e.fnc, e.arg)
  /-- The head is dispatched first, and after a slice the successor of its job among the jobs
      that had not returned before the end of the slice. -/
  first : (dispatched es (running s)).head? = (List.range jobs.length).head?
  next : ∀ l e r, es = l ++ e :: r → (dispatched r (running s)).head? =
    if unfinished jobs (l ++ [e]) = [] then none else successor (notReturned jobs (l ++ [e]) l) e.job
  /-- Between two slices of a job every other unfinished job has exactly one. -/
  once : ∀ l e r mid rest, es = l ++ e :: r → dispatched r (running s) = mid ++ e.job :: rest → e.job ∉ mid →
    ∀ y ∈ unfinished jobs (l ++ [e]), y ≠ e.job → mid.count y = 1
  /-- Each slice of a job is run once, in order. -/
  in_order : ∀ x, (es.filter (·.job = x)).map Event.slice = List.range (ran es x)
  /-- A job returns, and so is unlinked, once, and is not dispatched afterwards. -/
  returned : ∀ l e r, es = l ++ e :: r → e.does.returns = true → e.job ∉ dispatched r (running s)
  finished_nodup : (finished es).Nodup
  /-- The queue is the list of the unfinished jobs, and the others are freed. -/
  queue_eq : s.cpu ≠ .main → ∃ sch, s.schObj = .live sch ∧ sch.head = (unfinished jobs es).head? ∧
    Linked (links s) (unfinished jobs es)
  freed : ∀ a, (s.jobs a = none ↔ a ∉ unfinished jobs es) ∧ (s.stackUsed a = true ↔ a ∈ unfinished jobs es)
  /-- `scheduler_execute` returns when every job created has finished, and only then. -/
  main_iff : s.cpu = .main ↔ unfinished jobs es = []
  goes_on : s.cpu = .main ∨ es.length = slices.length

theorem nodup_finished (h : ∀ l e r, es = l ++ e :: r → e.does.returns = true → e.job ∉ r.map Event.job) :
    (finished es).Nodup := by
  induction es with
  | nil => exact List.nodup_nil
  | cons e es ih =>
    have ih := ih fun l d r hd => h (e :: l) d r (by rw [hd]; rfl)
    cases hr : e.does.returns with
    | false => simpa [finished, hr] using ih
    | true =>
      have hn : e.job ∉ finished es := fun hm => h [] e es rfl hr (List.map_subset _ (List.filter_subset_self _) hm)
      simpa [finished, hr] using And.intro hn ih

/-- The last turn of a trace: the state is as the trace says. -/
theorem Sim.main_iff {o : Option (Turn Nat)} (h : Sim made runs o s) : s.cpu = .main ↔ queue o = [] := by
  cases o with
  | none => exact iff_of_true h.control.2 rfl
  | some t =>
    obtain ⟨-, fnc, arg, -, hcpu⟩ := h.control
    exact iff_of_false (by simp [hcpu]) (by simp [queue, Turn.queue])

theorem Sim.queue_linked {o : Option (Turn Nat)} (h : Sim made runs o s) (hcpu : s.cpu ≠ .main) :
    ∃ sch, s.schObj = .live sch ∧ sch.head = (queue o).head? ∧ Linked (links s) (queue o) := by
  cases o with
  | none => exact absurd h.control.2 hcpu
  | some t => exact ⟨_, h.control.1, rfl, h.linked⟩

theorem Mem.eq_none_iff (h : Mem made runs q cur s) (a : Nat) : s.jobs a = none ↔ a ∉ q := by
  refine ⟨?_, h.none_of_notMem a⟩
  intro hn ha
  obtain ⟨j, hj, -⟩ := h.job a ha
  rw [hn] at hj
  cases hj

/-- The scheduler is an exact round robin, for any jobs and whatever they do. -/
theorem takes_turns (jobs : List (Fnc × Arg)) (slices : List (Slice Fnc Arg)) :
    ∃ es s, session jobs slices = .ok (es, s) ∧ TakesTurns jobs slices es s := by
  obtain ⟨s0, s1, hs0, hs1, h⟩ := execute_sim jobs
  have hsim : Sim (created jobs []) (ran ([] : List (Event Fnc Arg))) (Turn.first (List.range jobs.length)) s1 := by
    rw [show created jobs [] = jobs by simp [created]]
    exact h
  have hb : Board jobs ([] : List (Event Fnc Arg)) (Turn.first (List.range jobs.length)) := by
    refine ⟨?_, fun a ha => absurd ha List.not_mem_nil⟩
    simp [unfinished, notReturned, created, finished]
  obtain ⟨es, o, s, hrun, ht, hend, hdoes, hgo⟩ := run_trace slices hsim
  rw [List.nil_append] at hend
  have hq : queue o = unfinished jobs es := (trace_board ht hb).queue_eq
  have hmain := hend.main_iff
  refine ⟨es, s, ?_, ?_⟩
  · simp only [session, hs0, ok_bind, hs1]
    exact hrun
  constructor
  case slices_eq => exact hdoes
  case code => exact fun e he => trace_code ht hb he
  case first => rw [hend.running_eq, head?_dispatched ht, ← head?_order, order_first]
  case next =>
    intro l e r hes
    rw [hend.running_eq]
    exact trace_next (hes ▸ ht) hb
  case once =>
    intro l e r mid rest hes hmid hm y hy hne
    rw [hend.running_eq] at hmid
    exact trace_once (hes ▸ ht) hb hmid hm hy hne
  case in_order => exact trace_in_order ht hb
  case returned =>
    intro l e r hes
    rw [hend.running_eq]
    exact trace_returned (hes ▸ ht) hb
  case finished_nodup =>
    apply nodup_finished
    intro l e r hes hr hm
    exact trace_returned (hes ▸ ht) hb hr (List.mem_append_left _ hm)
  case queue_eq =>
    intro hcpu
    rw [← hq]
    exact hend.queue_linked hcpu
  case freed =>
    intro a
    rw [← hq]
    exact ⟨hend.mem.eq_none_iff a, hend.mem.stackUsed a⟩
  case main_iff => rw [hmain, hq]
  case goes_on =>
    rcases hgo with rfl | hlen
    · exact Or.inl (hmain.2 rfl)
    · exact Or.inr hlen

/-- Three jobs, the third created by the first; the second finishes in its first slice, and the
    job after it is the third. -/
example : (session [(1, ()), (2, ())] [⟨[(3, ())], false⟩, ⟨[], true⟩, ⟨[], false⟩, ⟨[], true⟩, ⟨[], true⟩]).map
      (fun r => (r.1.map fun e => (e.job, e.slice), running r.2))
    = .ok ([(0, 0), (1, 0), (2, 0), (0, 1), (2, 1)], none) := by
  rfl

end Cs238p.Sched
