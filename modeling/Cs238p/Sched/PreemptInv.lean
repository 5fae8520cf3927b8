/-
  Cs238p.Sched.PreemptInv — what a preempted scheduler keeps in memory.

  `Mem`: the jobs of the queue are in memory, each with its stack; those that have started
  are at the point `code` says, which is where they were preempted, unless they run. A call
  of `scheduler_create` may be preempted too: the job it is making (`Draft`) is in memory as
  far as it has got, and not yet in the queue. The tallies say that what is neither in the
  queue nor about to be freed is new or has been freed.

  Proved: each change that a statement makes to the jobs keeps this, whatever the others are
  in the middle of.
-/
import Cs238p.Sched.Preempt
import Mathlib.Data.List.Nodup

namespace Cs238p.Sched.Preempt

open LinkedList

variable {Fnc Arg : Type} {junk : Nat → Job Fnc Arg} {q as bs : List Nat} {code : Option Nat → Option (Pc Fnc Arg)}
  {run left w : Option Nat} {s s' : St Fnc Arg} {a c : Nat} {j j' : Job Fnc Arg} {pc pc' : Pc Fnc Arg}

/-- A job that a call of `scheduler_create` is making: so many of its fields are set. -/
structure Draft (Fnc Arg : Type) where
  job : Nat
  done : Nat
  fnc : Fnc
  arg : Arg
  deriving DecidableEq, Repr

def Pc.draft : Pc Fnc Arg → Option (Draft Fnc Arg)
  | .create _ fnc arg p =>
    match p with
    | .fill n j => some ⟨j, n, fnc, arg⟩
    | .testHead j | .setHead j | .toHead j | .testNext j _ | .toNext j _ | .link j _ =>
      some ⟨j, (fills j fnc arg).length, fnc, arg⟩
    | _ => none
  | _ => none

/-- What is in memory of it. -/
def Draft.record (junk : Nat → Job Fnc Arg) (d : Draft Fnc Arg) : Job Fnc Arg :=
  ((fills d.job d.fnc d.arg).take d.done).foldl (fun c f => f c) (junk d.job)

theorem Draft.record_succ (junk : Nat → Job Fnc Arg) (d : Draft Fnc Arg) :
    Draft.record junk { d with done := d.done + 1 } = ((fills d.job d.fnc d.arg)[d.done]?.getD id) (d.record junk) := by
  simp only [Draft.record, List.take_add_one, List.foldl_append]
  cases (fills d.job d.fnc d.arg)[d.done]? <;> rfl

theorem Draft.record_done (junk : Nat → Job Fnc Arg) (d : Draft Fnc Arg)
    (h : (fills d.job d.fnc d.arg).length ≤ d.done) :
    d.record junk = ⟨d.job, d.job, d.fnc, d.arg, (junk d.job).env, 0, none⟩ := by
  rw [Draft.record, List.take_of_length_le h]
  rfl

/-- The points at which a job that has started runs on its own stack and is in the queue. -/
def Pc.inJob : Pc Fnc Arg → Bool
  | .callFnc | .body _ _ | .testPrev | .headNext | .prevNext => true
  | .create caller _ _ _ => caller.isSome
  | _ => false

/-- Whether the function of the job has returned, as a number. -/
def hasReturned : Option (Pc Fnc Arg) → Nat
  | some .testPrev | some .headNext | some .prevNext => 1
  | _ => 0

/-- What a job that was preempted at this point relies on. -/
def Settled (q : List Nat) (a : Nat) : Pc Fnc Arg → Prop
  | .headNext => q.head? = some a
  | .create _ _ _ (.fill n _) => n < 7
  | .create _ _ _ (.setHead _) => False
  | _ => True

def links (s : St Fnc Arg) (a : Nat) : Option (Option Nat) := (s.jobs a).map Job.next

structure Drafted (junk : Nat → Job Fnc Arg) (q : List Nat) (d : Draft Fnc Arg) (s : St Fnc Arg) : Prop where
  notMem : d.job ∉ q
  lt : d.job < s.mallocs
  job : s.jobs d.job = some (d.record junk)
  stack : d.done ≠ 0 → s.stackUsed d.job = true
  tally : s.tally d.job = ⟨0, 0, 0, 0⟩

/-- `run` is the job that has the processor, `left` one that has been unlinked and is not
    freed yet; `code` says where the jobs that have started are, and `main` (`none`). -/
structure Mem (junk : Nat → Job Fnc Arg) (q : List Nat) (code : Option Nat → Option (Pc Fnc Arg)) (run left : Option Nat)
    (s : St Fnc Arg) : Prop where
  nodup : q.Nodup
  lt : ∀ a ∈ q, a < s.mallocs
  job : ∀ a ∈ q, ∃ j, s.jobs a = some j ∧ j.startAddr = a ∧ j.stackAddr = a ∧ s.stackUsed a = true ∧
    (code (some a) = none → j.status = 0) ∧
    ∀ pc, code (some a) = some pc → j.status = 1 ∧ (run = some a ∨ j.env = some ⟨some a, pc⟩)
  started : ∀ a pc, code (some a) = some pc → a ∈ q ∧ pc.inJob = true ∧ Settled q a pc
  draft : ∀ w pc d, code w = some pc → pc.draft = some d → Drafted junk q d s
  apart : ∀ w w' pc pc' d d', code w = some pc → code w' = some pc' → pc.draft = some d → pc'.draft = some d' →
    d.job = d'.job → w = w'
  within : ∀ a ∈ q, s.tally a = ⟨1, hasReturned (code (some a)), 0, 0⟩
  outside : ∀ a, a ∉ q → left ≠ some a → s.tally a = ⟨0, 0, 0, 0⟩ ∨ s.tally a = ⟨1, 1, 1, 1⟩
  new : ∀ a, s.mallocs ≤ a → s.tally a = ⟨0, 0, 0, 0⟩

theorem sch_eq {sc : Scheduler} (h : s.schObj = .live sc) : sch s = .ok sc := by simp only [sch, h]

theorem deref_eq (hj : s.jobs a = some j) : deref s (some a) = .ok j := by simp only [deref, hj]

theorem modify_eq (f : Job Fnc Arg → Job Fnc Arg) (hj : s.jobs a = some j) :
    modify (some a) f s = .ok { s with jobs := Function.update s.jobs a (some (f j)) } := by simp only [modify, hj]

theorem links_update (s : St Fnc Arg) (a : Nat) (j : Job Fnc Arg) :
    links { s with jobs := Function.update s.jobs a (some j) } = Function.update (links s) a (some j.next) := by
  funext b
  by_cases h : b = a
  · subst h
    simp [links]
  · simp [links, h]

theorem links_kept (hj : s.jobs a = some j) (hn : j'.next = j.next) :
    links { s with jobs := Function.update s.jobs a (some j') } = links s := by
  rw [links_update, hn, show some j.next = links s a by simp only [links, hj, Option.map_some]]
  exact Function.update_eq_self ..

/-- Only the jobs, their stacks, their number and the tallies matter. -/
theorem Mem.congr (h : Mem junk q code run left s) (hj : s'.jobs = s.jobs) (hs : s'.stackUsed = s.stackUsed)
    (hm : s'.mallocs = s.mallocs) (ht : s'.tally = s.tally) : Mem junk q code run left s' := by
  obtain ⟨jobs, stackUsed, mallocs, schObj, cpu, tally⟩ := s'
  subst hj hs hm ht
  exact ⟨h.nodup, h.lt, h.job, h.started,
    fun w pc d hw hd => ⟨(h.draft w pc d hw hd).1, (h.draft w pc d hw hd).2, (h.draft w pc d hw hd).3,
      (h.draft w pc d hw hd).4, (h.draft w pc d hw hd).5⟩, h.apart, h.within, h.outside, h.new⟩

theorem Mem.ne_draft (h : Mem junk q code run left s) {d : Draft Fnc Arg} (ha : a ∈ q) (hw : code w = some pc)
    (hd : pc.draft = some d) : d.job ≠ a := by
  intro e
  exact (h.draft w pc d hw hd).notMem (e ▸ ha)

/-- A job of the queue is written. It may move on, but neither make a job nor return. -/
theorem Mem.set (h : Mem junk q code run left s) (run' : Option Nat) (j' : Job Fnc Arg) (p : Option (Pc Fnc Arg)) (ha : a ∈ q)
    (hj : s.jobs a = some j) (hsame : j'.startAddr = j.startAddr ∧ j'.stackAddr = j.stackAddr)
    (hready : (p = none → j'.status = 0) ∧
      ∀ pc, p = some pc → j'.status = 1 ∧ (run' = some a ∨ j'.env = some ⟨some a, pc⟩))
    (hrun : ∀ b, b ≠ a → run = some b → run' = some b)
    (hp : ∀ pc, p = some pc → pc.inJob = true ∧ Settled q a pc)
    (hdraft : ∀ pc d, p = some pc → pc.draft = some d → code (some a) = some pc)
    (hret : hasReturned p = hasReturned (code (some a))) :
    Mem junk q (Function.update code (some a) p) run' left { s with jobs := Function.update s.jobs a (some j') } := by
  -- who makes a job is at the point where it was
  have hcode : ∀ w pc d, Function.update code (some a) p w = some pc → pc.draft = some d → code w = some pc := by
    intro w pc d hw hd
    by_cases e : w = some a
    · subst e
      rw [Function.update_self] at hw
      exact hdraft pc d hw hd
    · rwa [Function.update_of_ne e] at hw
  constructor
  case nodup => exact h.nodup
  case lt => exact h.lt
  case job =>
    intro b hb
    obtain ⟨i, hi, h1, h2, h3, h4, h5⟩ := h.job b hb
    by_cases e : b = a
    · subst e
      obtain rfl : i = j := Option.some.inj (hi.symm.trans hj)
      refine ⟨j', Function.update_self .., hsame.1.trans h1, hsame.2.trans h2, h3, ?_, ?_⟩
      · rw [Function.update_self]
        exact hready.1
      · rw [Function.update_self]
        exact hready.2
    · have hne : some b ≠ some a := fun e' => e (Option.some.inj e')
      refine ⟨i, (Function.update_of_ne e ..).trans hi, h1, h2, h3, ?_, ?_⟩
      · rw [Function.update_of_ne hne]
        exact h4
      · rw [Function.update_of_ne hne]
        intro pc hpc
        exact ⟨(h5 pc hpc).1, (h5 pc hpc).2.imp_left (hrun b e)⟩
  case started =>
    intro b pc hb
    by_cases e : some b = some a
    · obtain rfl := Option.some.inj e
      rw [Function.update_self] at hb
      exact ⟨ha, hp pc hb⟩
    · rw [Function.update_of_ne e] at hb
      exact h.started b pc hb
  case draft =>
    intro w pc d hw hd
    obtain ⟨h1, h2, h3, h4, h5⟩ := h.draft w pc d (hcode w pc d hw hd) hd
    exact ⟨h1, h2, (Function.update_of_ne (h.ne_draft ha (hcode w pc d hw hd) hd) ..).trans h3, h4, h5⟩
  case apart =>
    intro w w' pc pc' d d' hw hw' hd hd'
    exact h.apart w w' pc pc' d d' (hcode w pc d hw hd) (hcode w' pc' d' hw' hd') hd hd'
  case within =>
    intro b hb
    by_cases e : some b = some a
    · obtain rfl := Option.some.inj e
      rw [Function.update_self, hret]
      exact h.within b hb
    · rw [Function.update_of_ne e]
      exact h.within b hb
  case outside => exact h.outside
  case new => exact h.new

/-- The links do not matter here. -/
theorem Mem.setNext (h : Mem junk q code run left s) (ha : a ∈ q) (hj : s.jobs a = some j) (n : Option Nat) :
    Mem junk q code run left { s with jobs := Function.update s.jobs a (some { j with next := n }) } := by
  obtain ⟨i, hi, -, -, -, h1, h2⟩ := h.job a ha
  obtain rfl : i = j := Option.some.inj (hi.symm.trans hj)
  have hset := h.set run { i with next := n } (code (some a)) ha hj ⟨rfl, rfl⟩ ⟨h1, h2⟩ (fun _ _ hb => hb)
    (fun pc hpc => (h.started a pc hpc).2) (fun pc d hpc _ => hpc) rfl
  rwa [Function.update_eq_self] at hset

/-- Who runs moves on; of the jobs only the one that is being made may be written. -/
theorem Mem.advance (h : Mem junk q code run left s) (pc' : Pc Fnc Arg) (hw : code run = some pc)
    (hother : ∀ b, (∀ d, pc'.draft = some d → b ≠ d.job) → s'.jobs b = s.jobs b ∧ s'.stackUsed b = s.stackUsed b)
    (hmallocs : s.mallocs ≤ s'.mallocs) (htally : ∀ b, run ≠ some b → s'.tally b = s.tally b)
    (hdraft : ∀ d, pc'.draft = some d → Drafted junk q d s' ∧
      ∀ w pc₁ d₁, code w = some pc₁ → pc₁.draft = some d₁ → d₁.job = d.job → w = run)
    (hrun : ∀ b ∈ q, run = some b → s'.tally b = ⟨1, hasReturned (some pc'), 0, 0⟩)
    (hjob : ∀ a, run = some a → pc'.inJob = true ∧ Settled q a pc') :
    Mem junk q (Function.update code run (some pc')) run left s' := by
  have hmem : ∀ b, run = some b → b ∈ q := by
    rintro b rfl
    exact (h.started b pc hw).1
  have hqueue : ∀ b ∈ q, s'.jobs b = s.jobs b ∧ s'.stackUsed b = s.stackUsed b :=
    fun b hb => hother b fun d hd e => (hdraft d hd).1.notMem (e ▸ hb)
  have hapart : ∀ w pc₁ d d₁, w ≠ run → code w = some pc₁ → pc₁.draft = some d₁ → pc'.draft = some d → d₁.job ≠ d.job :=
    fun w pc₁ d d₁ hne h1 h2 hd e => hne ((hdraft d hd).2 w pc₁ d₁ h1 h2 e)
  constructor
  case nodup => exact h.nodup
  case lt => exact fun b hb => Nat.lt_of_lt_of_le (h.lt b hb) hmallocs
  case job =>
    intro b hb
    obtain ⟨i, hi, h1, h2, h3, h4, h5⟩ := h.job b hb
    refine ⟨i, (hqueue b hb).1.trans hi, h1, h2, (hqueue b hb).2.trans h3, ?_⟩
    by_cases e : some b = run
    · subst e
      rw [Function.update_self]
      exact ⟨(fun h => by cases h), fun _ _ => ⟨(h5 pc hw).1, Or.inl rfl⟩⟩
    · rw [Function.update_of_ne e]
      exact ⟨h4, h5⟩
  case started =>
    intro b pc₁ hb
    by_cases e : some b = run
    · subst e
      rw [Function.update_self] at hb
      cases hb
      exact ⟨(h.started b pc hw).1, hjob b rfl⟩
    · rw [Function.update_of_ne e] at hb
      exact h.started b pc₁ hb
  case draft =>
    intro w pc₁ d₁ hw₁ hd₁
    by_cases e : w = run
    · subst e
      rw [Function.update_self] at hw₁
      cases hw₁
      exact (hdraft d₁ hd₁).1
    · rw [Function.update_of_ne e] at hw₁
      obtain ⟨h1, h2, h3, h4, h5⟩ := h.draft w pc₁ d₁ hw₁ hd₁
      obtain ⟨hj, hs⟩ := hother d₁.job fun d hd => hapart w pc₁ d d₁ e hw₁ hd₁ hd
      exact ⟨h1, Nat.lt_of_lt_of_le h2 hmallocs, hj.trans h3, fun h0 => hs.trans (h4 h0),
        (htally _ fun e => h1 (hmem _ e)).trans h5⟩
  case apart =>
    intro w w' pc₁ pc₂ d₁ d₂ hw₁ hw₂ hd₁ hd₂ he
    by_cases e : w = run
    · by_cases e' : w' = run
      · exact e.trans e'.symm
      · subst e
        rw [Function.update_self] at hw₁
        rw [Function.update_of_ne e'] at hw₂
        cases hw₁
        exact absurd he.symm (hapart w' pc₂ d₁ d₂ e' hw₂ hd₂ hd₁)
    · rw [Function.update_of_ne e] at hw₁
      by_cases e' : w' = run
      · subst e'
        rw [Function.update_self] at hw₂
        cases hw₂
        exact absurd he (hapart w pc₁ d₂ d₁ e hw₁ hd₁ hd₂)
      · rw [Function.update_of_ne e'] at hw₂
        exact h.apart w w' pc₁ pc₂ d₁ d₂ hw₁ hw₂ hd₁ hd₂ he
  case within =>
    intro b hb
    by_cases e : some b = run
    · subst e
      rw [Function.update_self]
      exact hrun b hb rfl
    · rw [Function.update_of_ne e]
      exact (htally b (Ne.symm e)).trans (h.within b hb)
  case outside =>
    intro b hb hl
    rw [htally b fun e => hb (hmem b e)]
    exact h.outside b hb hl
  case new =>
    intro b hb
    have hle : s.mallocs ≤ b := Nat.le_trans hmallocs hb
    rw [htally b fun e => Nat.not_lt.mpr hle (h.lt b (hmem b e))]
    exact h.new b hle

theorem Mem.tally_running (h : Mem junk q code run left s) (hw : code run = some pc)
    (hret : hasReturned (some pc') = hasReturned (some pc)) :
    ∀ b ∈ q, run = some b → s.tally b = ⟨1, hasReturned (some pc'), 0, 0⟩ := by
  rintro b hb rfl
  rw [hret, ← hw]
  exact h.within b hb

theorem Mem.move (h : Mem junk q code run left s) (pc' : Pc Fnc Arg) (hw : code run = some pc)
    (hdraft : ∀ d, pc'.draft = some d → pc.draft = some d) (hret : hasReturned (some pc') = hasReturned (some pc))
    (hjob : ∀ a, run = some a → pc'.inJob = true ∧ Settled q a pc') :
    Mem junk q (Function.update code run (some pc')) run left s :=
  h.advance pc' hw (fun _ _ => ⟨rfl, rfl⟩) (Nat.le_refl _) (fun _ _ => rfl)
    (fun d hd => ⟨h.draft run pc d hw (hdraft d hd),
      fun w pc₁ d₁ h1 h2 he => h.apart w run pc₁ pc d₁ d h1 hw h2 (hdraft d hd) he⟩) (h.tally_running hw hret) hjob

/-- Nobody runs: whoever is given the processor is where the memory says. -/
theorem Mem.resumed (h : Mem junk q code none left s) (run : Option Nat) : Mem junk q code run left s := by
  refine ⟨h.nodup, h.lt, fun b hb => ?_, h.started, h.draft, h.apart, h.within, h.outside, h.new⟩
  obtain ⟨i, hi, h1, h2, h3, h4, h5⟩ := h.job b hb
  exact ⟨i, hi, h1, h2, h3, h4, fun pc hpc => ⟨(h5 pc hpc).1, Or.inr ((h5 pc hpc).2.resolve_left (fun h => by cases h))⟩⟩

/-! ## A job is made -/

/-- `j = malloc (sizeof (struct job))`. -/
theorem Mem.malloc (h : Mem junk q code run left s) (pc' : Pc Fnc Arg) {fnc : Fnc} {arg : Arg} (hw : code run = some pc)
    (hdraft : pc'.draft = some ⟨s.mallocs, 0, fnc, arg⟩) (hret : hasReturned (some pc') = hasReturned (some pc))
    (hjob : ∀ a, run = some a → pc'.inJob = true ∧ Settled q a pc') :
    Mem junk q (Function.update code run (some pc')) run left
      { s with jobs := Function.update s.jobs s.mallocs (some (junk s.mallocs)), mallocs := s.mallocs + 1 } := by
  refine h.advance pc' hw ?_ (Nat.le_succ _) (fun _ _ => rfl) ?_ (h.tally_running hw hret) hjob
  · intro b hb
    exact ⟨Function.update_of_ne (hb _ hdraft) .., rfl⟩
  · intro d hd
    cases hdraft.symm.trans hd
    refine ⟨⟨?_, Nat.lt_succ_self _, Function.update_self .., fun h0 => absurd rfl h0, h.new _ (Nat.le_refl _)⟩, ?_⟩
    · intro hm
      exact absurd (h.lt _ hm) (Nat.lt_irrefl _)
    · intro w pc₁ d₁ hw₁ hd₁ he
      exact absurd (he ▸ (h.draft w pc₁ d₁ hw₁ hd₁).lt) (Nat.lt_irrefl _)

/-- One more of its fields is set; the first is its stack. -/
theorem Mem.fill (h : Mem junk q code run left s) (pc' : Pc Fnc Arg) {d : Draft Fnc Arg} (hw : code run = some pc) (hd : pc.draft = some d)
    (hdraft : pc'.draft = some { d with done := d.done + 1 }) (hret : hasReturned (some pc') = hasReturned (some pc))
    (hjob : ∀ a, run = some a → pc'.inJob = true ∧ Settled q a pc') :
    Mem junk q (Function.update code run (some pc')) run left
      { s with jobs := Function.update s.jobs d.job (some (((fills d.job d.fnc d.arg)[d.done]?.getD id) (d.record junk))),
               stackUsed := if d.done = 0 then Function.update s.stackUsed d.job true else s.stackUsed } := by
  obtain ⟨h1, h2, h3, h4, h5⟩ := h.draft run pc d hw hd
  refine h.advance pc' hw ?_ (Nat.le_refl _) (fun _ _ => rfl) ?_ (h.tally_running hw hret) hjob
  · intro b hb
    have hne : b ≠ d.job := hb { d with done := d.done + 1 } hdraft
    refine ⟨Function.update_of_ne hne .., ?_⟩
    show (if d.done = 0 then Function.update s.stackUsed d.job true else s.stackUsed) b = _
    split
    · exact Function.update_of_ne hne ..
    · rfl
  · intro d' hd'
    cases hdraft.symm.trans hd'
    refine ⟨⟨h1, h2, ?_, fun _ => ?_, h5⟩, fun w pc₁ d₁ h1 h2 he => h.apart w run pc₁ pc d₁ d h1 hw h2 hd he⟩
    · rw [Draft.record_succ]
      exact Function.update_self ..
    · show (if d.done = 0 then Function.update s.stackUsed d.job true else s.stackUsed) d.job = true
      split
      · exact Function.update_self ..
      · rename_i h0
        exact h4 h0

/-- It is put into the queue, which lists whoever makes it. -/
theorem Mem.enlist (h : Mem junk q code run left s) (pc' : Pc Fnc Arg) {d : Draft Fnc Arg} (hw : code run = some pc) (hd : pc.draft = some d)
    (hdone : (fills d.job d.fnc d.arg).length ≤ d.done) (hdraft : pc'.draft = none)
    (hret : hasReturned (some pc') = hasReturned (some pc))
    (hjob : ∀ a, run = some a → pc'.inJob = true ∧ Settled q a pc') :
    Mem junk (q ++ [d.job]) (Function.update code run (some pc')) run left (enlisted d.job s) := by
  obtain ⟨hnot, hlt, hj, hstack, htally⟩ := h.draft run pc d hw hd
  have hm := h.move pc' hw (fun d' hd' => by rw [hdraft] at hd'; cases hd') hret hjob
  have hcode : Function.update code run (some pc') (some d.job) = none := by
    rw [Option.eq_none_iff_forall_not_mem]
    exact fun pc₁ h1 => hnot (hm.started _ pc₁ h1).1
  have hrecord := d.record_done junk hdone
  have hsettled : ∀ (b : Nat) (pc₁ : Pc Fnc Arg), Settled q b pc₁ → Settled (q ++ [d.job]) b pc₁ := by
    intro b pc₁ hset
    unfold Settled at hset ⊢
    split
    · have hhead : q.head? = some b := hset
      rw [List.head?_append, hhead]
      rfl
    · exact hset
    · exact hset
    · trivial
  constructor
  case nodup => exact List.nodup_append'.mpr ⟨h.nodup, List.nodup_singleton _, by simpa using hnot⟩
  case lt =>
    intro b hb
    rcases List.mem_append.mp hb with hb | hb
    · exact h.lt b hb
    · exact List.mem_singleton.mp hb ▸ hlt
  case job =>
    intro b hb
    rcases List.mem_append.mp hb with hb | hb
    · exact hm.job b hb
    · obtain rfl := List.mem_singleton.mp hb
      have h0 : d.done ≠ 0 := fun e => by rw [e] at hdone; cases hdone
      refine ⟨d.record junk, hj, by rw [hrecord], by rw [hrecord], hstack h0, fun _ => by rw [hrecord], ?_⟩
      rw [hcode]
      exact fun _ h => by cases h
  case started =>
    intro b pc₁ hb
    obtain ⟨h1, h2, h3⟩ := hm.started b pc₁ hb
    exact ⟨List.mem_append_left _ h1, h2, hsettled b pc₁ h3⟩
  case draft =>
    intro w pc₁ d₁ hw₁ hd₁
    obtain ⟨h1, h2, h3, h4, h5⟩ := hm.draft w pc₁ d₁ hw₁ hd₁
    have hne : d₁.job ≠ d.job := by
      intro e
      by_cases e' : w = run
      · subst e'
        rw [Function.update_self] at hw₁
        cases hw₁
        rw [hdraft] at hd₁
        cases hd₁
      · rw [Function.update_of_ne e'] at hw₁
        exact e' (h.apart w run pc₁ pc d₁ d hw₁ hw hd₁ hd e)
    refine ⟨?_, h2, h3, h4, (Function.update_of_ne hne ..).trans h5⟩
    rw [List.mem_append, List.mem_singleton, not_or]
    exact ⟨h1, hne⟩
  case apart => exact hm.apart
  case within =>
    intro b hb
    by_cases e : b = d.job
    · subst e
      rw [hcode]
      refine (Function.update_self ..).trans ?_
      rw [htally]
      rfl
    · rcases List.mem_append.mp hb with hb | hb
      · exact (Function.update_of_ne e ..).trans (hm.within b hb)
      · exact absurd (List.mem_singleton.mp hb) e
  case outside =>
    intro b hb hl
    rw [List.mem_append, List.mem_singleton, not_or] at hb
    rw [show (enlisted d.job s).tally b = s.tally b from Function.update_of_ne hb.2 ..]
    exact h.outside b hb.1 hl
  case new =>
    intro b hb
    have hne : b ≠ d.job := by
      have : s.mallocs ≤ b := hb
      omega
    exact (Function.update_of_ne hne ..).trans (h.new b hb)

/-! ## A job ends -/

/-- Its function returns. -/
theorem Mem.returns (h : Mem junk q code (some a) left s) (hw : code (some a) = some pc)
    (hret : hasReturned (some pc) = 0) :
    Mem junk q (Function.update code (some a) (some .testPrev)) (some a) left
      (note a (fun t => { t with finished := t.finished + 1 }) s) := by
  refine h.advance .testPrev hw (fun _ _ => ⟨rfl, rfl⟩) (Nat.le_refl _) ?_ (fun _ h => by cases h) ?_ (fun _ _ => ⟨rfl, trivial⟩)
  · intro b hb
    exact Function.update_of_ne (fun e => hb (congrArg some e.symm)) ..
  · intro b hb e
    obtain rfl := Option.some.inj e
    refine (Function.update_self ..).trans ?_
    rw [h.within a hb, hw, hret]
    rfl

/-- It is unlinked. -/
theorem Mem.unlink (h : Mem junk (bs ++ c :: as) code (some c) none s) :
    Mem junk (bs ++ as) (Function.update code (some c) none) none (some c) s := by
  have hd := h.nodup
  rw [List.nodup_middle, List.nodup_cons] at hd
  have hmem : ∀ b ∈ bs ++ as, b ∈ bs ++ c :: as ∧ b ≠ c := by
    intro b hb
    refine ⟨?_, fun e => hd.1 (e ▸ hb)⟩
    rw [List.mem_append, List.mem_cons]
    exact (List.mem_append.mp hb).imp_right Or.inr
  have hcode : ∀ w pc, Function.update code (some c) none w = some pc → w ≠ some c ∧ code w = some pc := by
    intro w pc hw
    by_cases e : w = some c
    · subst e
      rw [Function.update_self] at hw
      cases hw
    · rw [Function.update_of_ne e] at hw
      exact ⟨e, hw⟩
  constructor
  case nodup => exact hd.2
  case lt => exact fun b hb => h.lt b (hmem b hb).1
  case job =>
    intro b hb
    have e : some b ≠ some c := fun e => (hmem b hb).2 (Option.some.inj e)
    obtain ⟨i, hi, h1, h2, h3, h4, h5⟩ := h.job b (hmem b hb).1
    rw [Function.update_of_ne e]
    exact ⟨i, hi, h1, h2, h3, h4, fun pc hpc => ⟨(h5 pc hpc).1, Or.inr ((h5 pc hpc).2.resolve_left (Ne.symm e))⟩⟩
  case started =>
    intro b pc hb
    obtain ⟨e, hb⟩ := hcode _ _ hb
    obtain ⟨h1, h2, h3⟩ := h.started b pc hb
    have hne : b ≠ c := fun e' => e (congrArg some e')
    refine ⟨?_, h2, ?_⟩
    · rw [List.mem_append, List.mem_cons] at h1
      exact List.mem_append.mpr (h1.imp_right fun h1 => h1.resolve_left hne)
    · unfold Settled at h3 ⊢
      split
      · -- `b` is the head, so it is not the one that is unlinked
        cases bs with
        | nil => exact absurd (Option.some.inj h3).symm hne
        | cons d bs => exact h3
      · exact h3
      · exact h3
      · trivial
  case draft =>
    intro w pc d hw hdr
    obtain ⟨h1, h2, h3, h4, h5⟩ := h.draft w pc d (hcode w pc hw).2 hdr
    exact ⟨fun hm => h1 (hmem _ hm).1, h2, h3, h4, h5⟩
  case apart =>
    intro w w' pc pc' d d' hw hw' hdr hdr'
    exact h.apart w w' pc pc' d d' (hcode w pc hw).2 (hcode w' pc' hw').2 hdr hdr'
  case within =>
    intro b hb
    have e : some b ≠ some c := fun e => (hmem b hb).2 (Option.some.inj e)
    rw [Function.update_of_ne e]
    exact h.within b (hmem b hb).1
  case outside =>
    intro b hb hl
    refine h.outside b ?_ (fun h => by cases h)
    rw [List.mem_append, List.mem_cons]
    rintro (hb' | rfl | hb')
    · exact hb (List.mem_append_left _ hb')
    · exact hl rfl
    · exact hb (List.mem_append_right _ hb')
  case new => exact h.new

/-- It is freed, stack or all: nobody in the queue has anything to do with it. -/
theorem Mem.release (h : Mem junk q code run (some c) s) (s' : St Fnc Arg) (hc : c ∉ q) (ht : s.tally c ≠ ⟨0, 0, 0, 0⟩)
    (hjobs : ∀ b, b ≠ c → s'.jobs b = s.jobs b) (hstacks : ∀ b, b ≠ c → s'.stackUsed b = s.stackUsed b)
    (htally : ∀ b, b ≠ c → s'.tally b = s.tally b) (hmallocs : s'.mallocs = s.mallocs)
    (hleft : left = some c ∨ s'.tally c = ⟨1, 1, 1, 1⟩) : Mem junk q code run left s' := by
  have hne : ∀ b ∈ q, b ≠ c := fun b hb e => hc (e ▸ hb)
  constructor
  case nodup => exact h.nodup
  case lt =>
    rw [hmallocs]
    exact h.lt
  case job =>
    intro b hb
    obtain ⟨i, hi, h1, h2, h3, h4⟩ := h.job b hb
    exact ⟨i, (hjobs b (hne b hb)).trans hi, h1, h2, (hstacks b (hne b hb)).trans h3, h4⟩
  case started => exact h.started
  case draft =>
    intro w pc d hw hd
    obtain ⟨h1, h2, h3, h4, h5⟩ := h.draft w pc d hw hd
    have e : d.job ≠ c := by
      rintro rfl
      exact ht h5
    exact ⟨h1, hmallocs ▸ h2, (hjobs _ e).trans h3, fun h0 => (hstacks _ e).trans (h4 h0), (htally _ e).trans h5⟩
  case apart => exact h.apart
  case within => exact fun b hb => (htally b (hne b hb)).trans (h.within b hb)
  case outside =>
    intro b hb hl
    by_cases e : b = c
    · subst e
      exact Or.inr (hleft.resolve_left hl)
    · rw [htally b e]
      exact h.outside b hb fun e' => e (Option.some.inj e').symm
  case new =>
    intro b hb
    rw [hmallocs] at hb
    have e : b ≠ c := by
      rintro rfl
      exact ht (h.new b hb)
    rw [htally b e]
    exact h.new b hb

end Cs238p.Sched.Preempt
