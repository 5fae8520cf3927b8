/-
  Cs238p.Sched.PreemptRuns — where SIGALRM may arrive.

  It may not arrive everywhere: between `free (curr)` and `curr = prev` the handler finds
  `curr` freed, before the two `free` it leaves a finished job that is never freed
  (`an_alarm_finds_a_freed_job`), at the start of `scheduler_execute` it finds `curr` NULL; while
  the next job is chosen it saves the dispatcher in place of a started job. And a preempted walk
  of `scheduler_create` holds a job that may be gone, or no longer last, when it goes on.

  Proved: in every run that is only interrupted where it does no harm (`Harmless`) nothing
  faults, the queue has every unfinished job, and every job has been freed once when
  `scheduler_execute` returns (`preemption_is_safe`).
-/
import Cs238p.Sched.PreemptSteps

namespace Cs238p.Sched.Preempt

open LinkedList

variable {Fnc Arg : Type} {junk : Nat → Job Fnc Arg} {q : List Nat} {code : Option Nat → Option (Pc Fnc Arg)}
  {run left : Option Nat} {s s' : St Fnc Arg}

/-! ## Steps -/

theorem stmt_ok (h : Inv junk s) (hact : Harmless s .stmt) {r : Except Stop (St Fnc Arg)} (hstmt : stmt junk s = some r) :
    ∃ s', r = .ok s' ∧ Inv junk s' := by
  obtain ⟨q, code, run, left, hl, hm, hp⟩ := h
  have hdone : (∃ s', stmt junk s = some (.ok s') ∧ Inv junk s') → ∃ s', r = .ok s' ∧ Inv junk s' := by
    rintro ⟨s', hs', hi⟩
    exact ⟨s', Option.some.inj (hstmt.symm.trans hs'), hi⟩
  cases hp with
  | @main pc hs hcpu hcode hnone hpc =>
    have hgo : ∀ pc : Pc Fnc Arg, (⟨s.cpu.stack, pc⟩ : Ctx Fnc Arg) = ⟨none, pc⟩ := by
      rw [hcpu]
      exact fun _ => rfl
    rcases hpc with rfl | rfl | ⟨fnc, arg, p, rfl, hw⟩
    · rw [stmt, hcpu] at hstmt
      cases hstmt
    · refine hdone ⟨goto .setPrev (withSch ⟨true, q.head?, none, none⟩ s), ?_, q, code, none, none, hl,
        hm.congr rfl rfl rfl rfl, .dispatch rfl (hgo _) (fun _ h => by cases h) trivial⟩
      simp only [stmt, hcpu, sch_eq hs, ok_bind]
    · obtain ⟨s', new, hs', hafter⟩ := Creating.creates ⟨hm, hl, hs, rfl, hcode, hw⟩
      have hstep : stmt junk s = some (.ok s') := by simp only [stmt, hcpu, hs']
      have hother : ∀ (p' : Pc Fnc Arg) a, Function.update code none (some p') (some a) = none :=
        fun p' a => (Function.update_of_ne (Option.some_ne_none a) ..).trans (hnone a)
      rcases hafter with ⟨p', h, hw'⟩ | h
      · exact hdone ⟨s', hstep, _, _, none, none, h.linked, h.mem, .main h.schObj (h.cpu.trans (hgo _))
          (Function.update_self ..) (hother _) (Or.inr (Or.inr ⟨fnc, arg, p', rfl, hw'⟩))⟩
      · exact hdone ⟨s', hstep, _, _, none, none, h.linked, h.mem, .main h.schObj (h.cpu.trans (hgo _))
          (Function.update_self ..) (hother _) (Or.inl rfl)⟩
  | @dispatch pc curr prev hs hcpu hcurr hd =>
    have hchoose := choose_ok hm hl hs hcpu hcurr hd
    have henter := fun hpc => enter_ok hm hl hs hcpu hcurr hd hpc hact
    cases pc with
    | freeSch =>
      have hq : q = [] := hd
      refine hdone ⟨goto .ret { s with schObj := .freed }, ?_, q, code, none, none, hl, hm.congr rfl rfl rfl rfl,
        .ended hq rfl (Or.inl rfl)⟩
      simp only [stmt, hcpu, sch_eq hs, ok_bind]
    | testStatus => exact hdone (henter (by simp))
    | setRsp => exact hdone (henter (by simp))
    | mov rsp => exact hdone (henter (by simp))
    | resume => exact hdone (henter (by simp))
    | setPrev => exact hdone (hchoose (by simp))
    | testNext => exact hdone (hchoose (by simp))
    | toHead => exact hdone (hchoose (by simp))
    | noPrev => exact hdone (hchoose (by simp))
    | toNext => exact hdone (hchoose (by simp))
    | testCurr => exact hdone (hchoose (by simp))
    | _ => exact hd.elim
  | starting hq hs hcpu hcode =>
    subst hq
    exact hdone (start_ok hm hl hs hcpu hcode)
  | running hq hs hcpu hcode hr =>
    subst hq
    exact running_ok hm hl hs hcpu hcode hr hstmt
  | leaving hq hc hs hcpu hleave =>
    subst hq
    exact hdone (leaving_ok hm hl hc hs hcpu hleave)
  | ended hq hs hpc =>
    rcases hpc with hpc | hpc
    · refine hdone ⟨goto .returned s, ?_, q, code, none, none, hl, hm.congr rfl rfl rfl rfl, .ended hq hs (Or.inr rfl)⟩
      simp only [stmt, hpc]
    · simp only [stmt, hpc] at hstmt
      cases hstmt

theorem Phase.of_main (hp : Phase s q code run left) (hm : Mem junk q code run left s) (hpc : s.cpu.pc = .main) :
    run = none ∧ left = none ∧ s.schObj = .live ⟨false, q.head?, none, none⟩ ∧ s.cpu = ⟨none, .main⟩ ∧
      code none = some .main ∧ ∀ a, code (some a) = none := by
  cases hp with
  | main hs hcpu hcode hnone _ =>
    rw [hcpu] at hpc
    subst hpc
    exact ⟨rfl, rfl, hs, hcpu, hcode, hnone⟩
  | dispatch _ hcpu _ hd =>
    rw [hcpu] at hpc
    subst hpc
    exact hd.elim
  | starting _ _ hcpu _ =>
    rw [hcpu] at hpc
    cases hpc
  | @running bs as c pc hq _ hcpu hcode _ =>
    rw [hcpu] at hpc
    subst hpc
    cases (hm.started c _ hcode).2.1
  | leaving _ _ _ hcpu hleave =>
    rw [hcpu] at hpc
    subst hpc
    exact hleave.elim
  | ended _ _ h =>
    rw [hpc] at h
    rcases h with h | h <;> cases h

theorem Phase.of_body {fnc : Fnc} {arg : Arg} (hp : Phase s q code run left) (hpc : s.cpu.pc = .body fnc arg) :
    ∃ bs c as, q = bs ++ c :: as ∧ run = some c ∧ left = none ∧
      s.schObj = .live ⟨true, q.head?, some c, bs.getLast?⟩ ∧ s.cpu = ⟨some c, .body fnc arg⟩ ∧
      code (some c) = some (.body fnc arg) := by
  cases hp with
  | main _ hcpu _ _ h =>
    rw [hcpu] at hpc
    subst hpc
    rcases h with h | h | ⟨_, _, _, h, -⟩ <;> cases h
  | dispatch _ hcpu _ hd =>
    rw [hcpu] at hpc
    subst hpc
    exact hd.elim
  | starting _ _ hcpu _ =>
    rw [hcpu] at hpc
    cases hpc
  | @running bs as c pc hq hs hcpu hcode _ =>
    rw [hcpu] at hpc
    subst hpc
    exact ⟨bs, c, as, hq, rfl, rfl, hs, hcpu, hcode⟩
  | leaving _ _ _ hcpu hleave =>
    rw [hcpu] at hpc
    subst hpc
    exact hleave.elim
  | ended _ _ h =>
    rw [hpc] at h
    rcases h with h | h <;> cases h

/-- `main` goes on. -/
theorem main_ok (h : Inv junk s) (hpc : s.cpu.pc = .main) {pc : Pc Fnc Arg}
    (hnext : pc = .setjmp ∨ ∃ fnc arg, pc = .create none fnc arg .testObj) : Inv junk (goto pc s) := by
  obtain ⟨q, code, run, left, hl, hm, hp⟩ := h
  obtain ⟨rfl, rfl, hs, hcpu, hcode, hnone⟩ := hp.of_main hm hpc
  have hm' : Mem junk q (Function.update code none (some pc)) none none s := by
    rcases hnext with rfl | ⟨fnc, arg, rfl⟩
    · exact hm.move _ hcode (fun _ h => by cases h) rfl (fun _ h => by cases h)
    · exact hm.move _ hcode (fun _ h => by cases h) rfl (fun _ h => by cases h)
  refine ⟨q, _, none, none, hl, hm'.congr rfl rfl rfl rfl, .main hs ?_ (Function.update_self ..) ?_ ?_⟩
  · rw [goto, hcpu]
  · exact fun a => (Function.update_of_ne (Option.some_ne_none a) ..).trans (hnone a)
  · rcases hnext with rfl | ⟨fnc, arg, rfl⟩
    · exact Or.inr (Or.inl rfl)
    · exact Or.inr (Or.inr ⟨fnc, arg, .testObj, rfl, trivial⟩)

/-- A step that does no harm does not fault, and keeps the invariant. -/
theorem step_ok (h : Inv junk s) {act : Act Fnc Arg} (hact : Harmless s act) {r : Except Stop (St Fnc Arg)}
    (hstep : step junk s act = some r) : ∃ s', r = .ok s' ∧ Inv junk s' := by
  cases act with
  | stmt => exact stmt_ok h hact hstep
  | alarm =>
    obtain ⟨s', hs', hi⟩ := alarm_ok h hact
    refine ⟨s', ?_, hi⟩
    rw [step] at hstep
    split at hstep
    · cases hstep
    · cases hstep
    · exact (Option.some.inj hstep).symm.trans hs'
  | execute =>
    rw [step] at hstep
    split at hstep
    · rename_i hpc
      exact ⟨_, (Option.some.inj hstep).symm, main_ok h hpc (Or.inl rfl)⟩
    · cases hstep
  | create fnc arg =>
    rw [step] at hstep
    split at hstep
    · rename_i hpc
      exact ⟨_, (Option.some.inj hstep).symm, main_ok h hpc (Or.inr ⟨fnc, arg, rfl⟩)⟩
    · rename_i f x hpc
      refine ⟨_, (Option.some.inj hstep).symm, ?_⟩
      obtain ⟨q, code, run, left, hl, hm, hp⟩ := h
      obtain ⟨bs, c, as, rfl, rfl, rfl, hs, hcpu, hcode⟩ := hp.of_body hpc
      have hm' := hm.move (.create (some (f, x)) fnc arg .testObj) hcode (fun _ h => by cases h) rfl fun _ _ => ⟨rfl, trivial⟩
      exact ⟨_, _, some c, none, hl, hm'.congr rfl rfl rfl rfl,
        .running rfl hs (by rw [goto, hcpu]) (Function.update_self ..) trivial⟩
    · cases hstep
  | finish =>
    rw [step] at hstep
    split at hstep
    · rename_i a f x hcpu₀
      refine ⟨_, (Option.some.inj hstep).symm, ?_⟩
      obtain ⟨q, code, run, left, hl, hm, hp⟩ := h
      obtain ⟨bs, c, as, rfl, rfl, rfl, hs, hcpu, hcode⟩ := hp.of_body (congrArg Ctx.pc hcpu₀)
      cases hcpu₀.symm.trans hcpu
      have hm' := hm.returns hcode rfl
      exact ⟨_, _, some a, none, hl, hm'.congr rfl rfl rfl rfl,
        .running rfl hs (by rw [goto, note, hcpu]) (Function.update_self ..) trivial⟩
    · cases hstep

theorem Reach.inv (h : Reach junk Harmless s) : Inv junk s := by
  induction h with
  | start => exact inv_start junk
  | step _ hact hstep ih =>
    obtain ⟨s', hs', hi⟩ := step_ok ih hact hstep
    cases hs'
    exact hi

/-! ## The claim -/

/-- `scheduler_execute` has chosen a job and gives it the processor. -/
def AtDispatch (s : St Fnc Arg) : Prop :=
  match s.cpu.pc with
  | .testStatus | .setRsp | .mov _ | .setStatus | .callFnc | .resume => True
  | _ => False

/-- What the scheduler promises when only the allowed steps happen. -/
structure Safe (junk : Nat → Job Fnc Arg) (allowed : St Fnc Arg → Act Fnc Arg → Prop) : Prop where
  /-- The handler dereferences nothing that is NULL or freed. -/
  handler : ∀ s e, Reach junk allowed s → allowed s .alarm → step junk s .alarm ≠ some (.error e)
  /-- At a dispatch `head`, `curr` and `prev` lead to jobs that are not freed, and from `head`
      every job that was created and has not finished is reached. -/
  dispatch : ∀ s, Reach junk allowed s → AtDispatch s → ∃ sc q, s.schObj = .live sc ∧ sc.head = q.head? ∧
    Linked (links s) q ∧ (∀ a, sc.curr = some a → s.jobs a ≠ none) ∧ (∀ a, sc.prev = some a → s.jobs a ≠ none) ∧
    ∀ a, (s.tally a).created ≠ 0 → (s.tally a).finished = 0 → a ∈ q
  /-- When `scheduler_execute` has returned, every job that was created has finished and has
      been freed, once. -/
  returned : ∀ s, Reach junk allowed s → s.cpu.pc = .returned → ∀ a, (s.tally a).created ≠ 0 → s.tally a = ⟨1, 1, 1, 1⟩

theorem Phase.placed (hp : Phase s q code run left) (hd : AtDispatch s) :
    ∃ bs c as, q = bs ++ c :: as ∧ left = none ∧ s.schObj = .live ⟨true, q.head?, some c, bs.getLast?⟩ := by
  unfold AtDispatch at hd
  cases hp with
  | main _ hcpu _ _ h =>
    rw [hcpu] at hd
    rcases h with rfl | rfl | ⟨_, _, _, rfl, -⟩ <;> exact hd.elim
  | @dispatch pc curr prev hs hcpu _ hdisp =>
    rw [hcpu] at hd
    have hplaced : ∃ c, Placed q curr prev c := by
      cases pc with
      | testStatus => exact hdisp
      | setRsp => exact hdisp.imp fun _ h => h.1
      | mov rsp => exact ⟨rsp, hdisp.1⟩
      | resume =>
        obtain ⟨c, _, h, -⟩ := hdisp
        exact ⟨c, h⟩
      | setStatus => exact hdisp.elim
      | callFnc => exact hdisp.elim
      | _ => exact hd.elim
    obtain ⟨c, rfl, bs, as, rfl, rfl⟩ := hplaced
    exact ⟨bs, c, as, rfl, rfl, hs⟩
  | @starting bs as c hq hs _ _ => exact ⟨bs, c, as, hq, rfl, hs⟩
  | @running bs as c _ hq hs _ _ _ => exact ⟨bs, c, as, hq, rfl, hs⟩
  | @leaving _ _ _ pc _ _ _ _ _ hcpu hleave =>
    rw [hcpu] at hd
    cases pc <;> first | exact hleave.elim | exact hd.elim
  | ended _ _ h =>
    rcases h with h | h
    · rw [h] at hd
      exact hd.elim
    · rw [h] at hd
      exact hd.elim

/-- However SIGALRM interrupts it, as long as that is where it does no harm: the scheduler
    keeps its promise, and no statement faults. -/
theorem preemption_is_safe (junk : Nat → Job Fnc Arg) :
    Safe junk Harmless ∧
      ∀ s act e, Reach junk Harmless s → Harmless s act → step junk s act ≠ some (.error e) := by
  have hfault : ∀ s act e, Reach junk Harmless s → Harmless s act → step junk s act ≠ some (.error e) := by
    intro s act e hr hact hstep
    obtain ⟨s', hs', -⟩ := step_ok hr.inv hact hstep
    cases hs'
  refine ⟨⟨fun s e hr hact => hfault s .alarm e hr hact, ?_, ?_⟩, hfault⟩
  · intro s hr hd
    obtain ⟨q, code, run, left, hl, hm, hp⟩ := hr.inv
    obtain ⟨bs, c, as, rfl, rfl, hs⟩ := hp.placed hd
    have hjob : ∀ a ∈ bs ++ c :: as, s.jobs a ≠ none := by
      intro a ha
      obtain ⟨j, hj, -⟩ := hm.job a ha
      rw [hj]
      exact fun h => by cases h
    refine ⟨_, bs ++ c :: as, hs, rfl, hl, ?_, ?_, ?_⟩
    · rintro a ⟨⟩
      exact hjob c (by simp)
    · intro a ha
      exact hjob a (List.mem_append_left _ (List.mem_of_getLast? ha))
    · intro a hcreated hfinished
      by_contra ha
      rcases hm.outside a ha (fun h => by cases h) with h | h
      · rw [h] at hcreated
        exact hcreated rfl
      · rw [h] at hfinished
        cases hfinished
  · intro s hr hpc a hcreated
    obtain ⟨q, code, run, left, hl, hm, hp⟩ := hr.inv
    have hq : q = [] ∧ left = none := by
      cases hp with
      | ended hq _ _ => exact ⟨hq, rfl⟩
      | main _ hcpu _ _ h =>
        rw [hcpu] at hpc
        rcases h with rfl | rfl | ⟨_, _, _, rfl, -⟩ <;> cases hpc
      | dispatch _ hcpu _ hdisp =>
        rw [hcpu] at hpc
        subst hpc
        exact hdisp.elim
      | starting _ _ hcpu _ =>
        rw [hcpu] at hpc
        cases hpc
      | running _ _ hcpu hcode _ =>
        rw [hcpu] at hpc
        subst hpc
        cases (hm.started _ _ hcode).2.1
      | leaving _ _ _ hcpu hleave =>
        rw [hcpu] at hpc
        subst hpc
        exact hleave.elim
    obtain ⟨rfl, rfl⟩ := hq
    rcases hm.outside a List.not_mem_nil (fun h => by cases h) with h | h
    · rw [h] at hcreated
      exact absurd rfl hcreated
    · exact h

/-- The state after some steps, if they are possible. -/
def steps (junk : Nat → Job Fnc Arg) : List (Act Fnc Arg) → St Fnc Arg → Option (St Fnc Arg)
  | [], s => some s
  | act :: acts, s =>
    match step junk s act with
    | some (.ok s) => steps junk acts s
    | _ => none

theorem Reach.steps {allowed : St Fnc Arg → Act Fnc Arg → Prop} (hall : ∀ s act, allowed s act) :
    ∀ (acts : List (Act Fnc Arg)) {s : St Fnc Arg}, Reach junk allowed s → Preempt.steps junk acts s = some s' →
      Reach junk allowed s' := by
  intro acts
  induction acts with
  | nil =>
    intro s hr h
    cases h
    exact hr
  | cons act acts ih =>
    intro s hr h
    unfold Preempt.steps at h
    split at h
    · rename_i u hu
      exact ih (.step hr (hall s act) hu) h
    · cases h

/-- One job is created, dispatched, returns and is freed; SIGALRM arrives before
    `curr = prev`. -/
def freedJob : List (Act Unit Unit) :=
  .create () () :: List.replicate 13 .stmt ++ .execute :: List.replicate 11 .stmt ++ .finish :: List.replicate 4 .stmt

/-- The same, with SIGALRM before the stack is freed: `scheduler_execute` returns. -/
def unlinkedJob : List (Act Unit Unit) :=
  .create () () :: List.replicate 13 .stmt ++ .execute :: List.replicate 11 .stmt ++ .finish :: List.replicate 2 .stmt ++
    .alarm :: List.replicate 7 .stmt

/-- SIGALRM between `free (curr)` and `curr = prev`; and one just before, after which the job
    is never freed. -/
theorem an_alarm_finds_a_freed_job :
    (¬ ∀ junk : Nat → Job Unit Unit, Safe junk fun _ _ => True) ∧
    ∃ (junk : Nat → Job Unit Unit) (s : St Unit Unit), Reach junk (fun _ _ => True) s ∧ s.cpu.pc = .returned ∧
      s.tally 0 = ⟨1, 1, 0, 0⟩ := by
  let junk : Nat → Job Unit Unit := fun _ => ⟨0, 0, (), (), none, 0, none⟩
  constructor
  · intro hall
    obtain ⟨s, hs, hfault⟩ : ∃ s, steps junk freedJob start = some s ∧ step junk s .alarm = some (.error .freed) :=
      ⟨_, rfl, rfl⟩
    exact (hall junk).handler s .freed (Reach.start.steps (fun _ _ => trivial) _ hs) trivial hfault
  · obtain ⟨s, hs, hpc, htally⟩ : ∃ s, steps junk unlinkedJob start = some s ∧ s.cpu.pc = .returned ∧
        s.tally 0 = ⟨1, 1, 0, 0⟩ := ⟨_, rfl, rfl, rfl⟩
    exact ⟨junk, s, Reach.start.steps (fun _ _ => trivial) _ hs, hpc, htally⟩

end Cs238p.Sched.Preempt
