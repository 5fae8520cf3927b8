/-
  Cs238p.Logfs.Completion — fair runs of the two threads come to the end of the caller's
  program.

  A fair run of the machine is infinite: at each time a thread makes a step, wakes up for no
  reason, or nothing happens, and a thread that can go on again and again does so again and
  again.

  Proved: unless something stops the process, every call is answered (`FairMachine.answered`)
  and the program ends (`FairMachine.ends`); so a client of the log ends with the answers of
  the byte array, unless it fills the slot of a block that is being written
  (`FairMachine.client_ends`).
-/
import Cs238p.Logfs.Interleaved

namespace Cs238p.Logfs

open Fairness Calls

structure FairMachine (B : Nat) {α : Type} (m₀ : MachineSt α) where
  st : Nat → MachineSt α
  start : st 0 = m₀
  next : ∀ i, MachineStep B (st i) (st (i + 1)) ∨ st (i + 1) = st i
  callerFair : StronglyFair (fun i => ∃ m, CallerMove B (st i) m) fun i => CallerMove B (st i) (st (i + 1))
  writerFair : StronglyFair (fun i => ∃ m, WriterMove B (st i) m) fun i => WriterMove B (st i) (st (i + 1))

variable {α : Type} {B : Nat} {m m' : MachineSt α} {q : SharedCall} {k : q.Answer → CallerProgram α}

/-! ## The threads of a run -/

theorem CallerMove.thread (hs : CallerMove B m m') : CallerStep m.threads m'.threads ∨ m'.threads = m.threads := by
  cases hs with
  | queue _ hc => exact Or.inl (.call _ hc)
  | fill _ hc => exact Or.inl (.put hc)
  | check _ hc => exact Or.inl (.check hc)
  | look _ hc => exact Or.inl (.look hc)
  | read | readStops => exact Or.inr rfl
  | close _ hc => exact Or.inl (.close hc)
  | inCall _ _ hs => exact Or.inl hs

theorem CallerMove.goesOn (hs : CallerMove B m m') (hc : m.threads.caller ≠ .idle) : GoesOn m.threads m'.threads := by
  refine ⟨?_, hc⟩
  cases hs with
  | queue _ hi | check _ hi | read _ hi _ | readStops _ hi _ | close _ hi => exact absurd hi hc
  | fill _ hc => exact .put hc
  | look _ hc => exact .look hc
  | inCall _ _ hs => exact hs

theorem WriterMove.thread (hs : WriterMove B m m') (hrun : m'.Running) : WriterStep m.threads m'.threads := by
  cases hs with
  | take _ hw htake => exact .take hw htake
  | takeStops | writeStops => exact absurd rfl (hrun _)
  | write _ hw _ _ => exact .write hw
  | inWriter _ _ hs => exact hs

theorem MachineStep.thread (hs : MachineStep B m m') (hrun : m'.Running) :
    CallerStep m.threads m'.threads ∨ WriterStep m.threads m'.threads ∨ Quiet m.threads m'.threads := by
  cases hs with
  | caller hs =>
    rcases hs.thread with hs | he
    · exact Or.inl hs
    · exact Or.inr (Or.inr (Or.inl he))
  | writer hs => exact Or.inr (Or.inl (hs.thread hrun))
  | spurious _ hs => exact Or.inr (Or.inr (Or.inr hs))

/-- A step that is not the caller's does not begin or end a call. -/
theorem MachineStep.idle_iff (hs : MachineStep B m m') (hno : ¬ CallerMove B m m') :
    m'.threads.caller = .idle ↔ m.threads.caller = .idle := by
  have hsignal : ∀ c : CallerPc, signalSpace c = .idle ↔ c = .idle := fun c => by cases c <;> simp [signalSpace]
  cases hs with
  | caller hs => exact absurd hs hno
  | writer hs =>
    cases hs with
    | inWriter _ _ hs =>
      cases hs with
      | signalSpace _ => exact hsignal _
      | _ => exact Iff.rfl
    | _ => exact Iff.rfl
  | spurious _ hs =>
    cases hs with
    | caller hc => simp [hc]
    | writer _ => exact Iff.rfl

/-- The caller's next step has the answer of its call. -/
def CallerPc.answers : CallerPc → Bool
  | .put _ | .look => true
  | _ => false

theorem MachineStep.answers (hs : MachineStep B m m') (hrun : m'.Running) (hp : m.prog = .ask q k)
    (ha : m.threads.caller.answers = true) (hne : m'.threads.caller ≠ m.threads.caller) : ∃ x, m'.prog = k x := by
  have hpc : ∀ c : CallerPc, c.answers = false → m.threads.caller ≠ c := fun c hc he => by
    rw [he, hc] at ha
    cases ha
  cases hs with
  | caller hs =>
    cases hs with
    | queue _ hc | check _ hc | read _ hc _ | close _ hc => exact absurd hc (hpc _ rfl)
    | fill hp' _ =>
      rw [hp] at hp'
      cases hp'
      exact ⟨_, rfl⟩
    | look hp' _ =>
      rw [hp] at hp'
      cases hp'
      exact ⟨_, rfl⟩
    | readStops => exact absurd rfl (hrun _)
    | inCall _ hplain _ =>
      cases hc : m.threads.caller with
      | put | look =>
        rw [hc] at hplain
        cases hplain
      | _ => exact absurd hc (hpc _ rfl)
  | writer hs =>
    have hkept := caller_kept (Or.inl (hs.thread hrun)) fun b => hpc _ rfl
    exact absurd hkept hne
  | spurious _ hs =>
    have hkept := caller_kept (Or.inr (Or.inr hs)) fun b => hpc _ rfl
    exact absurd hkept hne

/-- What a call begins with; a device read is at once its end. -/
theorem CallerMove.begins (hs : CallerMove B m m') (hc : m.threads.caller = .idle) (hp : m.prog = .ask q k) (hrun : m'.Running) :
    (∃ b, m'.threads.caller = .lock b) ∨ m'.threads.caller = .lockSlots ∨ ∃ x, m'.prog = k x := by
  cases hs with
  | queue _ _ => exact Or.inl ⟨_, rfl⟩
  | check _ _ => exact Or.inr (Or.inl rfl)
  | read hp' _ _ =>
    rw [hp] at hp'
    cases hp'
    exact Or.inr (Or.inr ⟨_, rfl⟩)
  | readStops => exact absurd rfl (hrun _)
  | close hp' _ =>
    rw [hp] at hp'
    cases hp'
  | fill _ hc' | look _ hc' =>
    rw [hc] at hc'
    cases hc'
  | inCall _ hplain _ =>
    rw [hc] at hplain
    cases hplain

/-- A call goes on until it has its answer. -/
theorem MachineStep.prog_cases (hs : MachineStep B m m') (hrun : m'.Running) (hp : m.prog = .ask q k) :
    m'.prog = .ask q k ∨ ∃ x, m'.prog = k x := by
  cases hs with
  | caller hs =>
    cases hs with
    | queue _ _ | check _ _ | close _ _ | inCall _ _ _ => exact Or.inl hp
    | fill hp' _ | look hp' _ | read hp' _ _ =>
      rw [hp] at hp'
      cases hp'
      exact Or.inr ⟨_, rfl⟩
    | readStops => exact absurd rfl (hrun _)
  | writer hs =>
    cases hs with
    | takeStops | writeStops => exact absurd rfl (hrun _)
    | _ => exact Or.inl hp
  | spurious _ _ => exact Or.inl hp

namespace FairMachine

variable {device : Device} {junk : Nat → List UInt8} {p : CallerProgram α} (r : FairMachine B (machineOpen device junk p))

theorem inv (i : Nat) : MachineInv junk (r.st i) := by
  induction i with
  | zero =>
    rw [r.start]
    exact machineInv_open device junk p
  | succ i ih =>
    rcases r.next i with hs | hs
    · exact ih.step hs
    · rw [hs]
      exact ih

theorem threads_start : (r.st 0).threads = threadsOpen junk := by rw [r.start]; rfl

variable {r} (hrun : ∀ i, (r.st i).Running)

include hrun

theorem threads_next (i : Nat) :
    CallerStep (r.st i).threads (r.st (i + 1)).threads ∨ WriterStep (r.st i).threads (r.st (i + 1)).threads ∨
      Quiet (r.st i).threads (r.st (i + 1)).threads := by
  rcases r.next i with hs | hs
  · exact hs.thread (hrun _)
  · exact Or.inr (Or.inr (Or.inl (by rw [hs])))

/-- Inside a call the caller's steps are all that it does. -/
theorem threads_callerFair : StronglyFair (fun i => ∃ s, GoesOn (r.st i).threads s)
    fun i => GoesOn (r.st i).threads (r.st (i + 1)).threads := by
  intro hoften i
  by_contra hnone
  have hno : ∀ j, i ≤ j → ¬ GoesOn (r.st j).threads (r.st (j + 1)).threads := fun j hij hj => hnone ⟨j, hij, hj⟩
  have hmoves : Often fun i => ∃ m, CallerMove B (r.st i) m := by
    intro n
    obtain ⟨j, hnj, s, hs⟩ := hoften n
    exact ⟨j, hnj, hs.1.moves (r.inv j) (hrun j) B⟩
  obtain ⟨j, hij, s, hs⟩ := hoften i
  -- from here on the caller is inside the call
  have hin : ∀ n, j ≤ n → (r.st n).threads.caller ≠ .idle := by
    intro n hjn
    induction n, hjn using Nat.le_induction with
    | base => exact hs.2
    | succ n hjn ih =>
      by_cases hm : CallerMove B (r.st n) (r.st (n + 1))
      · exact absurd (hm.goesOn ih) (hno n (Nat.le_trans hij hjn))
      · rcases r.next n with hs | hs
        · exact fun hidle => ih ((hs.idle_iff hm).mp hidle)
        · rw [hs]
          exact ih
  obtain ⟨n, hjn, hm⟩ := r.callerFair hmoves j
  exact hno n (Nat.le_trans hij hjn) (hm.goesOn (hin n hjn))

theorem threads_writerFair : StronglyFair (fun i => ∃ s, WriterStep (r.st i).threads s)
    fun i => WriterStep (r.st i).threads (r.st (i + 1)).threads := by
  intro hoften i
  have hmoves : Often fun i => ∃ m, WriterMove B (r.st i) m := by
    intro n
    obtain ⟨j, hnj, s, hs⟩ := hoften n
    exact ⟨j, hnj, hs.moves (r.inv j) (hrun j) B⟩
  obtain ⟨j, hij, hj⟩ := r.writerFair hmoves i
  exact ⟨j, hij, hj.thread (hrun _)⟩

omit hrun in
/-- The threads of a run that nothing stops. -/
def threads (hrun : ∀ i, (r.st i).Running) : FairRun junk :=
  ⟨fun i => (r.st i).threads, r.threads_start, threads_next hrun, threads_callerFair hrun, threads_writerFair hrun⟩

/-! ## Calls are answered -/

/-- Between two calls the caller makes its next move. -/
theorem moves {i : Nat} (hc : (r.st i).threads.caller = .idle) :
    ∃ j, i ≤ j ∧ (r.st j).threads.caller = .idle ∧ CallerMove B (r.st j) (r.st (j + 1)) := by
  let moved : Nat → Prop := fun j => ∃ n, j = n + 1 ∧ i ≤ n ∧ (r.st n).threads.caller = .idle ∧ CallerMove B (r.st n) (r.st (n + 1))
  have hmoved : LeadsTo (fun j => i ≤ j ∧ (r.st j).threads.caller = .idle) moved := by
    refine .fair r.callerFair ?_ ?_ (.of_imp fun j hj => Or.inl (idle_moves (hrun j) hj.2 B))
    · intro j hj
      by_cases hm : CallerMove B (r.st j) (r.st (j + 1))
      · exact Or.inr ⟨j, rfl, hj.1, hj.2, hm⟩
      · rcases r.next j with hs | hs
        · exact Or.inl ⟨Nat.le_succ_of_le hj.1, (hs.idle_iff hm).mpr hj.2⟩
        · exact Or.inl ⟨Nat.le_succ_of_le hj.1, by rw [hs]; exact hj.2⟩
    · exact fun j hj hm => ⟨j, rfl, hj.1, hj.2, hm⟩
  obtain ⟨_, -, j, -, hij, hidle, hm⟩ := hmoved i ⟨Nat.le_refl i, hc⟩
  exact ⟨j, hij, hidle, hm⟩

variable {q : SharedCall} {k : q.Answer → CallerProgram α}

omit hrun in
/-- From here on a call is asked for and has no answer. -/
structure Unanswered (r : FairMachine B (machineOpen device junk p)) (q : SharedCall) (k : q.Answer → CallerProgram α) (i : Nat) :
    Prop where
  asks : ∀ j, i ≤ j → (r.st j).prog = .ask q k
  no_answer : ∀ j, i ≤ j → ¬ ∃ x, (r.st j).prog = k x

variable {i j n : Nat}

omit hrun in
theorem Unanswered.after (h : Unanswered r q k i) (hij : i ≤ j) : Unanswered r q k j :=
  ⟨fun n hjn => h.asks n (Nat.le_trans hij hjn), fun n hjn => h.no_answer n (Nat.le_trans hij hjn)⟩

/-- The step that has the answer is not made. -/
theorem Unanswered.stuck (h : Unanswered r q k i) (hin : i ≤ n + 1) (ha : (r.st i).threads.caller.answers = true)
    (hn : (r.st n).threads.caller.answers = true) (hn' : (r.st (n + 1)).threads.caller.answers = false) : False := by
  have hle : i ≤ n := by
    rcases Nat.lt_or_eq_of_le hin with hlt | he
    · exact Nat.le_of_lt_succ hlt
    · rw [he, hn'] at ha
      cases ha
  have hne : (r.st (n + 1)).threads.caller ≠ (r.st n).threads.caller := fun he => by
    rw [he, hn] at hn'
    cases hn'
  rcases r.next n with hs | hs
  · exact h.no_answer (n + 1) hin (hs.answers (hrun _) (h.asks n hle) hn hne)
  · exact hne (by rw [hs])

theorem Unanswered.not_put (h : Unanswered r q k i) (b : Block) : (r.st i).threads.caller ≠ .put b := by
  intro hc
  obtain ⟨_, hin, n, rfl, hn, hn', -⟩ := (threads hrun).fills b i hc
  change (r.st n).threads.caller = .put b at hn
  change (r.st (n + 1)).threads.caller = .signalItem at hn'
  exact h.stuck hrun hin (by rw [hc]; rfl) (by rw [hn]; rfl) (by rw [hn']; rfl)

theorem Unanswered.not_waiting (h : Unanswered r q k i) (b : Block) : (r.st i).threads.caller.waiting ≠ some b := by
  intro hw
  obtain ⟨n, -, hin, -, hfills, -⟩ := (threads hrun).write_returns hw
  exact (h.after hin).not_put hrun b hfills.1

theorem Unanswered.not_look (h : Unanswered r q k i) : (r.st i).threads.caller ≠ .look := by
  intro hc
  obtain ⟨_, hin, n, rfl, hn, hn'⟩ := (threads hrun).looks i hc
  change (r.st n).threads.caller = .look at hn
  change (r.st (n + 1)).threads.caller = .unlock at hn'
  exact h.stuck hrun hin (by rw [hc]; rfl) (by rw [hn]; rfl) (by rw [hn']; rfl)

theorem Unanswered.not_slots (h : Unanswered r q k i) : (r.st i).threads.caller ≠ .lockSlots := by
  intro hc
  obtain ⟨n, hin, hn⟩ := (threads hrun).gets_slots i hc
  exact (h.after hin).not_look hrun hn

theorem Unanswered.not_idle (h : Unanswered r q k i) : (r.st i).threads.caller ≠ .idle := by
  intro hc
  obtain ⟨n, hin, hn, hm⟩ := moves hrun hc
  have h' := h.after (Nat.le_succ_of_le hin)
  rcases hm.begins hn (h.asks n hin) (hrun _) with ⟨b, hb⟩ | hl | hx
  · exact h'.not_waiting hrun b (by rw [hb]; rfl)
  · exact h'.not_slots hrun hl
  · exact h'.no_answer (n + 1) (Nat.le_refl _) hx

theorem Unanswered.not_returning (h : Unanswered r q k i) : (r.st i).threads.caller.returning ≠ true := by
  intro hc
  obtain ⟨n, hin, hn⟩ := (threads hrun).returns i hc
  exact (h.after hin).not_idle hrun hn

/-- Wherever the caller is, it comes to the answer of its next call. -/
theorem answered (hp : (r.st i).prog = .ask q k) : ∃ j, i ≤ j ∧ ∃ x, (r.st j).prog = k x := by
  by_contra hnone
  have hno : ∀ j, i ≤ j → ¬ ∃ x, (r.st j).prog = k x := fun j hij hj => hnone ⟨j, hij, hj⟩
  have h : Unanswered r q k i := by
    refine ⟨stays (Q := fun j => ∃ x, (r.st j).prog = k x) (fun j hj => ?_) hp hno, hno⟩
    rcases r.next j with hs | hs
    · exact hs.prog_cases (hrun _) hj
    · exact Or.inl (by rw [hs, hj])
  have hcalling := (r.inv i).calling (hrun i)
  rw [hp] at hcalling
  cases hpc : (r.st i).threads.caller with
  | idle => exact h.not_idle hrun hpc
  | signalItem | unlock => exact h.not_returning hrun (by rw [hpc]; rfl)
  | lock b | test b | block b | asleep b | woken b => exact h.not_waiting hrun b (by rw [hpc]; rfl)
  | put b => exact h.not_put hrun b hpc
  | look => exact h.not_look hrun hpc
  | lockSlots => exact h.not_slots hrun hpc
  | setDone | closeItem | closeSpace | join | joined =>
    rw [hpc] at hcalling
    obtain ⟨a, ha⟩ := hcalling
    cases ha

/-- By induction on what is left of the program. -/
theorem ends : ∃ i a, (r.st i).prog = .ret a := by
  have go : ∀ (left : CallerProgram α) (i : Nat), (r.st i).prog = left → ∃ j a, (r.st j).prog = .ret a := by
    intro left
    induction left with
    | ret a => exact fun i hi => ⟨i, a, hi⟩
    | stop e => exact fun i hi => absurd hi (hrun i e)
    | ask q k ih =>
      intro i hi
      obtain ⟨j, -, x, hj⟩ := answered hrun hi
      exact ih x j hj
  exact go _ 0 rfl

omit hrun in
theorem interleaves (hno : ∀ i, ¬ Clashes (r.st i) (r.st (i + 1))) (i : Nat) : Interleaves B (machineOpen device junk p) (r.st i) := by
  induction i with
  | zero => rw [r.start]
  | succ i ih =>
    rcases r.next i with hs | hs
    · exact ih.tail ⟨hs, hno i⟩
    · rw [hs]
      exact ih

end FairMachine

/-- Steps to a state that no thread can leave are a fair run. -/
theorem exists_fairMachine {m₀ m : MachineSt α} (hs : Interleaves B m₀ m) (hcaller : ∀ m', ¬ CallerMove B m m')
    (hwriter : ∀ m', ¬ WriterMove B m m') : ∃ r : FairMachine B m₀, ∀ i, ¬ Clashes (r.st i) (r.st (i + 1)) := by
  have hconst : IsRun (fun m m' => MachineStep B m m' ∧ ¬ Clashes m m') fun _ => m := isRun_const m
  obtain ⟨run, n, hrun, h0, hn⟩ := hconst.after hs
  have hrests : ∀ j, n ≤ j → run j = m := by
    intro j hj
    obtain ⟨i, rfl⟩ := Nat.exists_eq_add_of_le hj
    exact hn i
  refine ⟨⟨run, h0, fun i => (hrun i).imp_left And.left, .of_rest (n := n) ?_, .of_rest (n := n) ?_⟩, fun i hclash => ?_⟩
  · intro j hj h
    rw [hrests j hj] at h
    obtain ⟨m', hm⟩ := h
    exact hcaller m' hm
  · intro j hj h
    rw [hrests j hj] at h
    obtain ⟨m', hm⟩ := h
    exact hwriter m' hm
  · rcases hrun i with hs | hs
    · exact hs.2 hclash
    · obtain ⟨⟨b, hb⟩, hc, -⟩ := hclash
      change (run i).threads.caller = .put b at hb
      change (run (i + 1)).threads.caller = .signalItem at hc
      rw [hs, hb] at hc
      cases hc

theorem Interleaves.writer {m₀ m m' : MachineSt α} (h : Interleaves B m₀ m) (hs : WriterMove B m m')
    (hc : m'.threads.caller ≠ .signalItem) : Interleaves B m₀ m' :=
  h.tail ⟨.writer hs, fun hclash => hc hclash.2.1⟩

/-- The caller ends, and closes the log before the writer has started. -/
theorem closes {m₀ m : MachineSt α} (hs : Interleaves B m₀ m) (hret : ∃ a, m.prog = .ret a) (hp : m.pending = none)
    (hc : m.threads.caller = .unlock) (hw : m.threads.writer = .loop) :
    ∃ m', Interleaves B m₀ m' ∧ (∀ n, ¬ CallerMove B m' n) ∧ ∀ n, ¬ WriterMove B m' n := by
  obtain ⟨a, ha⟩ := hret
  have hrun : m.Running := fun e he => by
    rw [ha] at he
    cases he
  have h1 := hs.caller (.inCall hrun (by rw [hc]; rfl) (.unlock hc)) hp
  have h2 := h1.caller (.close ha rfl) hp
  have h3 := h2.caller (.inCall hrun rfl (.setDone rfl)) hp
  have h4 := h3.caller (.inCall hrun rfl (.closeItem rfl)) hp
  have h5 := h4.caller (.inCall hrun rfl (.closeSpace rfl)) hp
  have hloop : signalItem m.threads.writer = .loop := by rw [hw]; rfl
  have h6 := h5.writer (.inWriter hrun (by rw [hloop]; rfl) (.exit hloop rfl)) (by simp)
  have h7 := h6.caller (.inCall hrun rfl (.join rfl rfl)) hp
  refine ⟨_, h7, fun n hn => ?_, fun n hn => ?_⟩
  · cases hn with
    | inCall _ _ hs => cases hs <;> simp_all
    | _ => simp_all
  · cases hn with
    | inWriter _ _ hs => cases hs <;> simp_all
    | _ => simp_all

end Cs238p.Logfs
