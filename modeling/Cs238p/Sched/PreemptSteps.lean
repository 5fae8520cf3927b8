/-
  Cs238p.Sched.PreemptSteps — the statements of the scheduler, preempted.

  `Phase`: where the program is, and what each point relies on: `curr` and `prev` while a job
  is chosen (`Dispatching`), the end of the queue while one is made (`Walk`), the place in the
  queue of the job that runs (`Running`), what is left of one that has ended (`Leaving`).

  `scheduler_yield` saves the processor in the job `curr`. That is right while the job runs
  and is linked, and does no harm while `curr` has not started; and what a job was in the
  middle of must not have changed when it is resumed (`Harmless`).

  Proved: every statement goes on from what its point relies on to what the next relies on,
  and so does the handler where it does no harm (`alarm_ok`).
-/
import Cs238p.Lib.Outcome
import Cs238p.Sched.PreemptInv

namespace Cs238p.Sched.Preempt

open LinkedList

variable {Fnc Arg : Type} {junk : Nat → Job Fnc Arg} {q as bs : List Nat} {code : Option Nat → Option (Pc Fnc Arg)}
  {run left curr prev : Option Nat} {s s' : St Fnc Arg} {a c : Nat} {pc : Pc Fnc Arg} {sc : Scheduler}

/-! ## The condition -/

/-- `curr` is a job that has not been started. -/
def NotStarted (s : St Fnc Arg) : Prop :=
  ∃ sc c j, s.schObj = .live sc ∧ sc.curr = some c ∧ s.jobs c = some j ∧ j.status = 0

/-- `a` is reached from `head`. -/
def InQueue (s : St Fnc Arg) (a : Nat) : Prop :=
  ∃ sc q, s.schObj = .live sc ∧ sc.head = q.head? ∧ Linked (links s) q ∧ a ∈ q

/-- Nothing that a preempted job is in the middle of has changed: who unlinks itself behind
    `prev` has not become the head, who walks to the end of the queue still holds a job of it,
    and who found the end, or no end, still finds it so. -/
def Undisturbed (s : St Fnc Arg) : Pc Fnc Arg → Prop
  | .prevNext => ∀ sc, s.schObj = .live sc → sc.prev ≠ none
  | .create _ _ _ (.testNext _ last) => ∃ l, last = some l ∧ InQueue s l
  | .create _ _ _ (.toNext _ last) => ∃ l n, last = some l ∧ InQueue s l ∧ links s l = some (some n)
  | .create _ _ _ (.link _ last) => ∃ l, last = some l ∧ InQueue s l ∧ links s l = some none
  | _ => True

/-- SIGALRM arrives while `curr` has not been started, or while it runs on its own stack and
    is linked; and it is resumed where nothing it is in the middle of has changed. -/
def Harmless (s : St Fnc Arg) : Act Fnc Arg → Prop
  | .alarm => NotStarted s ∨ s.cpu.pc.inJob = true
  | .stmt => s.cpu.pc = .resume → ∀ sc c j ctx, s.schObj = .live sc → sc.curr = some c → s.jobs c = some j →
      j.env = some ctx → Undisturbed s ctx.pc
  | _ => True

/-! ## The invariant -/

/-- What the call of `scheduler_create` that runs relies on. -/
def Walk (s : St Fnc Arg) (q : List Nat) : CreateAt → Prop
  | .fill n _ => n < 7
  | .setHead _ => q = []
  | .toHead _ => q ≠ []
  | .testNext _ last => ∃ l ∈ q, last = some l
  | .toNext _ last => ∃ l ∈ q, last = some l ∧ ∃ n, links s l = some (some n)
  | .link _ last => ∃ l ∈ q, last = some l ∧ links s l = some none
  | _ => True

/-- What the job that runs relies on, `bs` being those before it in the queue. -/
def Running (s : St Fnc Arg) (q bs : List Nat) : Pc Fnc Arg → Prop
  | .create _ _ _ p => Walk s q p
  | .headNext => bs = []
  | .prevNext => bs ≠ []
  | _ => True

/-- `curr` is a job of the queue, and `prev` the one before it. -/
def Placed (q : List Nat) (curr prev : Option Nat) (c : Nat) : Prop :=
  curr = some c ∧ ∃ bs as, q = bs ++ c :: as ∧ prev = bs.getLast?

/-- What `scheduler_execute` relies on before a job has the processor. -/
def Dispatching (s : St Fnc Arg) (q : List Nat) (code : Option Nat → Option (Pc Fnc Arg)) (curr prev : Option Nat) :
    Pc Fnc Arg → Prop
  | .setPrev | .toHead => True
  | .testNext => prev = curr
  | .noPrev => curr = q.head?
  | .toNext => prev = curr ∧ ∃ c n, curr = some c ∧ links s c = some (some n)
  | .testCurr => ∃ bs as, q = bs ++ as ∧ curr = as.head? ∧ prev = bs.getLast? ∧ (as = [] → q = [])
  | .freeSch => q = []
  | .testStatus => ∃ c, Placed q curr prev c
  | .setRsp => ∃ c, Placed q curr prev c ∧ code (some c) = none
  | .mov rsp => Placed q curr prev rsp ∧ code (some rsp) = none
  | .resume => ∃ c pc, Placed q curr prev c ∧ code (some c) = some pc
  | _ => False

/-- What is left to do with the job `c` after it has been unlinked. -/
def Leaving (s : St Fnc Arg) (bs : List Nat) (c : Nat) (curr left : Option Nat) : Pc Fnc Arg → Prop
  | .freeStack => curr = some c ∧ left = some c ∧ (∃ j, s.jobs c = some j ∧ j.startAddr = c ∧ j.status = 1) ∧
      s.stackUsed c = true ∧ s.tally c = ⟨1, 1, 0, 0⟩
  | .freeJob => curr = some c ∧ left = some c ∧ (∃ j, s.jobs c = some j ∧ j.status = 1) ∧ s.tally c = ⟨1, 1, 1, 0⟩
  | .currPrev => curr = some c ∧ left = none ∧ s.jobs c = none
  | .jump => curr = bs.getLast? ∧ left = none
  | _ => False

/-- Where the program is. -/
inductive Phase (s : St Fnc Arg) (q : List Nat) (code : Option Nat → Option (Pc Fnc Arg)) :
    Option Nat → Option Nat → Prop
  | main {pc : Pc Fnc Arg} : s.schObj = .live ⟨false, q.head?, none, none⟩ → s.cpu = ⟨none, pc⟩ → code none = some pc →
      (∀ a, code (some a) = none) →
      (pc = .main ∨ pc = .setjmp ∨ ∃ fnc arg p, pc = .create none fnc arg p ∧ Walk s q p) → Phase s q code none none
  | dispatch {pc : Pc Fnc Arg} {curr prev : Option Nat} : s.schObj = .live ⟨true, q.head?, curr, prev⟩ →
      s.cpu = ⟨none, pc⟩ → (∀ c, curr = some c → c ∈ q) → Dispatching s q code curr prev pc → Phase s q code none none
  | starting {bs as : List Nat} {c : Nat} : q = bs ++ c :: as → s.schObj = .live ⟨true, q.head?, some c, bs.getLast?⟩ →
      s.cpu = ⟨some c, .setStatus⟩ → code (some c) = none → Phase s q code none none
  | running {bs as : List Nat} {c : Nat} {pc : Pc Fnc Arg} : q = bs ++ c :: as →
      s.schObj = .live ⟨true, q.head?, some c, bs.getLast?⟩ → s.cpu = ⟨some c, pc⟩ → code (some c) = some pc →
      Running s q bs pc → Phase s q code (some c) none
  | leaving {bs as : List Nat} {c : Nat} {pc : Pc Fnc Arg} {curr left : Option Nat} : q = bs ++ as → c ∉ q →
      s.schObj = .live ⟨true, q.head?, curr, bs.getLast?⟩ → s.cpu = ⟨some c, pc⟩ → Leaving s bs c curr left pc →
      Phase s q code none left
  | ended : q = [] → s.schObj = .freed → s.cpu.pc = .ret ∨ s.cpu.pc = .returned → Phase s q code none none

/-- The queue, who is where, and what is left to do. -/
def Inv (junk : Nat → Job Fnc Arg) (s : St Fnc Arg) : Prop :=
  ∃ q code run left, Linked (links s) q ∧ Mem junk q code run left s ∧ Phase s q code run left

theorem inv_start (junk : Nat → Job Fnc Arg) : Inv junk start := by
  refine ⟨[], fun w => if w = none then some .main else none, none, none, linked_nil, ?_, ?_⟩
  · have hcode : ∀ (w : Option Nat) (pc : Pc Fnc Arg), (if w = none then some Pc.main else none) = some pc →
        w = none ∧ pc = .main := by
      intro w pc hw
      by_cases e : w = none
      · rw [if_pos e] at hw
        cases hw
        exact ⟨e, rfl⟩
      · rw [if_neg e] at hw
        cases hw
    refine ⟨List.nodup_nil, (fun _ h => by cases h), (fun _ h => by cases h), ?_, ?_, ?_, (fun _ h => by cases h), fun _ _ _ => Or.inl rfl, fun _ _ => rfl⟩
    · intro a pc hw
      cases (hcode _ _ hw).1
    · intro w pc d hw hd
      rw [(hcode w pc hw).2] at hd
      cases hd
    · intro w w' pc pc' d d' hw hw' _ _ _
      rw [(hcode w pc hw).1, (hcode w' pc' hw').1]
  · exact .main rfl rfl rfl (fun _ => rfl) (Or.inl rfl)

/-! ## `scheduler_create` -/

/-- Where a call of `scheduler_create` returns to. -/
def backTo : Option (Fnc × Arg) → Pc Fnc Arg
  | none => .main
  | some (fnc, arg) => .body fnc arg

/-- What a statement of `scheduler_create` leaves: `new` have been put into the queue. -/
structure Created (junk : Nat → Job Fnc Arg) (q new : List Nat) (code : Option Nat → Option (Pc Fnc Arg))
    (run left : Option Nat) (sc : Scheduler) (s s' : St Fnc Arg) (pc : Pc Fnc Arg) : Prop where
  cpu : s'.cpu = ⟨s.cpu.stack, pc⟩
  schObj : s'.schObj = .live { sc with head := (q ++ new).head? }
  linked : Linked (links s') (q ++ new)
  mem : Mem junk (q ++ new) (Function.update code run (some pc)) run left s'

/-- The statement after an assignment to the new job. -/
theorem after_fill (caller : Option (Fnc × Arg)) (fnc : Fnc) (arg : Arg) {n : Nat} (j : Nat) (hn : n < 7) :
    ∃ p', (if n + 1 < (fills j fnc arg).length then CreateAt.fill (n + 1) j else .testHead j) = p' ∧
      (Pc.create caller fnc arg p').draft = some ⟨j, n + 1, fnc, arg⟩ ∧ (∀ i, p' ≠ .setHead i) ∧
      (∀ m i, p' = .fill m i → m < 7) ∧ ∀ (s : St Fnc Arg) (q : List Nat), Walk s q p' := by
  by_cases h7 : n + 1 < (fills j fnc arg).length
  · refine ⟨.fill (n + 1) j, if_pos h7, rfl, (fun _ h => by cases h), ?_, fun _ _ => h7⟩
    rintro m i ⟨⟩
    exact h7
  · have hlen : (fills j fnc arg).length = n + 1 := by
      have : (fills j fnc arg).length = 7 := rfl
      omega
    exact ⟨.testHead j, if_neg h7, congrArg (fun n => some (Draft.mk j n fnc arg)) hlen, (fun _ h => by cases h), (fun _ _ h => by cases h), fun _ _ => trivial⟩

/-- A call of `scheduler_create`, made by whoever runs, is at `p`. -/
structure Creating (junk : Nat → Job Fnc Arg) (q : List Nat) (code : Option Nat → Option (Pc Fnc Arg))
    (run left : Option Nat) (sc : Scheduler) (s : St Fnc Arg) (caller : Option (Fnc × Arg)) (fnc : Fnc) (arg : Arg)
    (p : CreateAt) : Prop where
  mem : Mem junk q code run left s
  linked : Linked (links s) q
  schObj : s.schObj = .live sc
  head : sc.head = q.head?
  code_eq : code run = some (.create caller fnc arg p)
  walk : Walk s q p

/-- The next statement does not fault, and leaves the call at the one after it or returned. -/
def Creates (junk : Nat → Job Fnc Arg) (q : List Nat) (code : Option Nat → Option (Pc Fnc Arg)) (run left : Option Nat)
    (sc : Scheduler) (s : St Fnc Arg) (caller : Option (Fnc × Arg)) (fnc : Fnc) (arg : Arg) (p : CreateAt) : Prop :=
  ∃ s' new, createStmt junk caller fnc arg s p = .ok s' ∧
    ((∃ p', Created junk q new code run left sc s s' (.create caller fnc arg p') ∧ Walk s' (q ++ new) p') ∨
      Created junk q new code run left sc s s' (backTo caller))

section

variable {caller : Option (Fnc × Arg)} {fnc : Fnc} {arg : Arg} {p p' : CreateAt} {j n : Nat} {l : Option Nat}

theorem Creating.by_job (h : Creating junk q code run left sc s caller fnc arg p) (ha : run = some a) :
    a ∈ q ∧ caller.isSome = true := by
  subst ha
  obtain ⟨hq, hin, -⟩ := h.mem.started a _ h.code_eq
  exact ⟨hq, hin⟩

theorem Creating.settled (h : Creating junk q code run left sc s caller fnc arg p)
    (h1 : ∀ j, p' = .setHead j → run = none) (h2 : ∀ n j, p' = .fill n j → n < 7) (a : Nat) (ha : run = some a) :
    (Pc.create caller fnc arg p').inJob = true ∧ Settled q a (Pc.create caller fnc arg p') := by
  refine ⟨(h.by_job ha).2, ?_⟩
  unfold Settled
  split
  · trivial
  · rename_i he
    cases he
    exact h2 _ _ rfl
  · rename_i he
    cases he
    cases ha.symm.trans (h1 _ rfl)
  · trivial

theorem Creating.sch_kept (h : Creating junk q code run left sc s caller fnc arg p) :
    s.schObj = .live { sc with head := (q ++ []).head? } := by
  rw [List.append_nil, ← h.head]
  exact h.schObj

/-- A statement that only goes on. -/
theorem Creating.goto (h : Creating junk q code run left sc s caller fnc arg p) (p' : CreateAt)
    (hok : createStmt junk caller fnc arg s p = .ok (Preempt.goto (.create caller fnc arg p') s))
    (h1 : ∀ j, p' = .setHead j → run = none) (h2 : ∀ n j, p' ≠ .fill n j)
    (h3 : ∀ d, (Pc.create caller fnc arg p').draft = some d → (Pc.create caller fnc arg p).draft = some d)
    (hw : Walk s q p') : Creates junk q code run left sc s caller fnc arg p := by
  have hm' := h.mem.move _ h.code_eq h3 rfl (h.settled h1 fun n j e => absurd e (h2 n j))
  refine ⟨_, [], hok, Or.inl ⟨p', ⟨rfl, h.sch_kept, ?_, ?_⟩, ?_⟩⟩
  · rw [List.append_nil]
    exact h.linked
  · rw [List.append_nil]
    exact hm'.congr rfl rfl rfl rfl
  · rw [List.append_nil]
    exact hw

theorem Creating.malloc (h : Creating junk q code run left sc s caller fnc arg .malloc) :
    Creates junk q code run left sc s caller fnc arg .malloc := by
  have hm' := h.mem.malloc (.create caller fnc arg (.fill 0 s.mallocs)) h.code_eq rfl rfl
    (h.settled (fun _ h => by cases h) (by rintro n j ⟨⟩; decide))
  refine ⟨_, [], rfl, Or.inl ⟨.fill 0 s.mallocs, ⟨rfl, h.sch_kept, ?_, ?_⟩, show 0 < 7 by decide⟩⟩
  · rw [List.append_nil]
    refine h.linked.congr fun a ha => ?_
    have hne : a ≠ s.mallocs := Nat.ne_of_lt (h.mem.lt a ha)
    exact (congrFun (links_update s s.mallocs (junk s.mallocs)) a).trans (Function.update_of_ne hne ..)
  · rw [List.append_nil]
    exact hm'.congr rfl rfl rfl rfl

theorem Creating.fill (h : Creating junk q code run left sc s caller fnc arg (.fill n j)) :
    Creates junk q code run left sc s caller fnc arg (.fill n j) := by
  have hd := h.mem.draft run _ _ h.code_eq rfl
  obtain ⟨p', hif, hdraft, hset, hfill, hw'⟩ := after_fill caller fnc arg j h.walk
  have hm' := h.mem.fill _ h.code_eq rfl hdraft rfl (h.settled (fun i e => absurd e (hset i)) hfill)
  refine ⟨Preempt.goto (.create caller fnc arg p') { s with
      jobs := Function.update s.jobs j (some (((fills j fnc arg)[n]?.getD id) (Draft.record junk ⟨j, n, fnc, arg⟩))),
      stackUsed := if n = 0 then Function.update s.stackUsed j true else s.stackUsed },
    [], ?_, Or.inl ⟨p', ⟨rfl, h.sch_kept, ?_, ?_⟩, hw' _ _⟩⟩
  · simp only [createStmt, hif]
    by_cases h0 : n = 0
    · simp only [if_pos h0, modify, show s.jobs j = _ from hd.job]
      rfl
    · simp only [if_neg h0, modify, show s.jobs j = _ from hd.job]
      rfl
  · rw [List.append_nil]
    refine h.linked.congr fun a ha => ?_
    have hne : a ≠ j := fun e => hd.notMem (e ▸ ha)
    exact (congrFun (links_update s j _) a).trans (Function.update_of_ne hne ..)
  · rw [List.append_nil]
    exact hm'.congr rfl rfl rfl rfl

theorem Creating.testHead (h : Creating junk q code run left sc s caller fnc arg (.testHead j)) :
    Creates junk q code run left sc s caller fnc arg (.testHead j) := by
  by_cases hnil : sc.head = none
  · have hq : q = [] := List.head?_eq_none_iff.mp (h.head.symm.trans hnil)
    have hnone : run = none := by
      rw [Option.eq_none_iff_forall_not_mem]
      intro a ha
      exact absurd (hq ▸ (h.by_job ha).1) List.not_mem_nil
    refine h.goto (.setHead j) ?_ (fun _ _ => hnone) (fun _ _ h => by cases h) (fun d hd => hd) hq
    rw [createStmt, sch_eq h.schObj]
    simp only [ok_bind, if_pos hnil]
  · refine h.goto (.toHead j) ?_ (fun _ h => by cases h) (fun _ _ h => by cases h) (fun d hd => hd) fun e => hnil (h.head.trans (e ▸ rfl))
    rw [createStmt, sch_eq h.schObj]
    simp only [ok_bind, if_neg hnil]

/-- The new job is complete, and the last of its own list. -/
theorem Creating.new_linked (h : Creating junk q code run left sc s caller fnc arg p)
    (hd : (Pc.create caller fnc arg p).draft = some ⟨j, (fills j fnc arg).length, fnc, arg⟩) : Linked (links s) [j] := by
  refine ⟨?_, linked_nil⟩
  show (s.jobs j).map Job.next = some none
  rw [show s.jobs j = _ from (h.mem.draft run _ _ h.code_eq hd).job, Draft.record_done junk _ (Nat.le_refl _)]
  rfl

theorem Creating.setHead (h : Creating junk q code run left sc s caller fnc arg (.setHead j)) :
    Creates junk q code run left sc s caller fnc arg (.setHead j) := by
  have hm' := h.mem.enlist (.create caller fnc arg (.ret 0)) h.code_eq rfl (Nat.le_refl _) rfl rfl (h.settled (fun _ h => by cases h) (fun _ _ h => by cases h))
  have hq : q = [] := h.walk
  subst hq
  refine ⟨Preempt.goto (.create caller fnc arg (.ret 0)) (enlisted j (withSch { sc with head := some j } s)), [j], ?_,
    Or.inl ⟨.ret 0, ⟨rfl, rfl, h.new_linked rfl, hm'.congr rfl rfl rfl rfl⟩, trivial⟩⟩
  rw [createStmt, sch_eq h.schObj]
  rfl

theorem Creating.testNext (h : Creating junk q code run left sc s caller fnc arg (.testNext j l)) :
    Creates junk q code run left sc s caller fnc arg (.testNext j l) := by
  obtain ⟨l, hlq, rfl⟩ := h.walk
  obtain ⟨i, hi, -⟩ := h.mem.job l hlq
  have hlink : links s l = some i.next := by simp only [links, hi, Option.map_some]
  by_cases hnil : i.next = none
  · refine h.goto (.link j (some l)) ?_ (fun _ h => by cases h) (fun _ _ h => by cases h) (fun d hd => hd) ⟨l, hlq, rfl, by rw [hlink, hnil]⟩
    rw [createStmt, deref_eq hi]
    simp only [ok_bind, if_pos hnil]
  · obtain ⟨n, hn⟩ := Option.ne_none_iff_exists'.mp hnil
    refine h.goto (.toNext j (some l)) ?_ (fun _ h => by cases h) (fun _ _ h => by cases h) (fun d hd => hd) ⟨l, hlq, rfl, n, by rw [hlink, hn]⟩
    rw [createStmt, deref_eq hi]
    simp only [ok_bind, if_neg hnil]

theorem Creating.toNext (h : Creating junk q code run left sc s caller fnc arg (.toNext j l)) :
    Creates junk q code run left sc s caller fnc arg (.toNext j l) := by
  obtain ⟨l, hlq, rfl, n, hn⟩ := h.walk
  obtain ⟨i, hi, -⟩ := h.mem.job l hlq
  have hin : i.next = some n := by
    simpa only [links, hi, Option.map_some, Option.some.injEq] using hn
  refine h.goto (.testNext j i.next) ?_ (fun _ h => by cases h) (fun _ _ h => by cases h) (fun d hd => hd) ⟨n, ?_, hin⟩
  · rw [createStmt, deref_eq hi]
    rfl
  · have hl := h.linked
    obtain ⟨bs, as, rfl⟩ := List.append_of_mem hlq
    have hhd : as.head? = some n := Option.some.inj (hl.next_eq.symm.trans hn)
    exact List.mem_append_right _ (List.mem_cons_of_mem _ (List.mem_of_mem_head? hhd))

theorem Creating.link (h : Creating junk q code run left sc s caller fnc arg (.link j l)) :
    Creates junk q code run left sc s caller fnc arg (.link j l) := by
  obtain ⟨l, hlq, rfl, hn⟩ := h.walk
  obtain ⟨i, hi, -⟩ := h.mem.job l hlq
  have hd := h.mem.draft run _ _ h.code_eq rfl
  have hm' := (h.mem.setNext hlq hi (some j)).enlist (.create caller fnc arg (.ret 0)) h.code_eq rfl (Nat.le_refl _) rfl
    rfl (h.settled (fun _ h => by cases h) (fun _ _ h => by cases h))
  have hl := h.linked
  have hdup := h.mem.nodup
  have hhead := h.head
  have hnew := h.new_linked rfl
  obtain ⟨bs, rfl⟩ := hl.last hlq hn
  refine ⟨Preempt.goto (.create caller fnc arg (.ret 0))
      (enlisted j { s with jobs := Function.update s.jobs l (some { i with next := some j }) }), [j], ?_,
    Or.inl ⟨.ret 0, ⟨rfl, ?_, ?_, hm'.congr rfl rfl rfl rfl⟩, trivial⟩⟩
  · rw [createStmt, modify_eq _ hi]
    rfl
  · rw [List.head?_append_of_ne_nil _ (by simp), ← hhead]
    exact h.schObj
  · have hl₁ : l ∉ bs := by
      rw [List.nodup_append_comm, List.singleton_append, List.nodup_cons] at hdup
      exact hdup.1
    have hl₂ : l ∉ [j] := by
      intro e
      exact hd.notMem (List.mem_append_right _ (List.mem_singleton.mpr (List.mem_singleton.mp e).symm))
    rw [List.append_assoc]
    show Linked (links { s with jobs := Function.update s.jobs l (some { i with next := some j }) }) _
    rw [links_update]
    exact hl.relink hnew hl₁ hl₂

theorem Creating.ret {r : Int} (h : Creating junk q code run left sc s caller fnc arg (.ret r)) :
    Creates junk q code run left sc s caller fnc arg (.ret r) := by
  have hm' : Mem junk q (Function.update code run (some (backTo caller))) run left s := by
    cases caller with
    | none =>
      refine h.mem.move _ h.code_eq (fun _ h => by cases h) rfl fun a ha => ?_
      cases (h.by_job ha).2
    | some f => exact h.mem.move _ h.code_eq (fun _ h => by cases h) rfl fun a ha => ⟨rfl, trivial⟩
  refine ⟨Preempt.goto (backTo caller) s, [], ?_, Or.inr ⟨rfl, h.sch_kept, ?_, ?_⟩⟩
  · cases caller <;> rfl
  · rw [List.append_nil]
    exact h.linked
  · rw [List.append_nil]
    exact hm'.congr rfl rfl rfl rfl

theorem Creating.creates (h : Creating junk q code run left sc s caller fnc arg p) :
    Creates junk q code run left sc s caller fnc arg p := by
  cases p with
  | testObj =>
    have hne : s.schObj ≠ .null := by
      rw [h.schObj]
      exact fun h => by cases h
    exact h.goto .pageSize (by rw [createStmt, if_neg hne]) (fun _ h => by cases h) (fun _ _ h => by cases h) (fun _ h => by cases h) trivial
  | pageSize => exact h.goto .malloc rfl (fun _ h => by cases h) (fun _ _ h => by cases h) (fun _ h => by cases h) trivial
  | malloc => exact h.malloc
  | fill n j => exact h.fill
  | testHead j => exact h.testHead
  | setHead j => exact h.setHead
  | toHead j =>
    refine h.goto (.testNext j sc.head) ?_ (fun _ h => by cases h) (fun _ _ h => by cases h) (fun d hd => hd) ?_
    · rw [createStmt, sch_eq h.schObj]
      rfl
    · cases q with
      | nil => exact absurd rfl h.walk
      | cons a q => exact ⟨a, List.mem_cons_self, h.head⟩
  | testNext j l => exact h.testNext
  | toNext j l => exact h.toNext
  | link j l => exact h.link
  | ret r => exact h.ret

end

/-! ## `scheduler_yield` -/

/-- The handler saves the processor in the job it was taken from, or in one that has not
    started. -/
theorem yield_ok (hm : Mem junk q code run none s) (hl : Linked (links s) q) (hs : s.schObj = .live sc)
    (henv : sc.env = true) (hhead : sc.head = q.head?) (hcurr : sc.curr = some c) (hc : c ∈ q)
    (hcode : ∀ pc, code (some c) = some pc → s.cpu = ⟨some c, pc⟩) (hrun : ∀ b, run = some b → b = c) :
    ∃ s', schedulerYield s = .ok s' ∧ Inv junk s' := by
  obtain ⟨j, hj, -, -, -, h0, h1⟩ := hm.job c hc
  have hset := hm.set none { j with env := some s.cpu } (code (some c)) hc hj ⟨rfl, rfl⟩
    ⟨h0, fun pc hpc => ⟨(h1 pc hpc).1, Or.inr (congrArg some (hcode pc hpc))⟩⟩ (fun b hb e => absurd (hrun b e) hb)
    (fun pc hpc => (hm.started c pc hpc).2) (fun pc d hpc _ => hpc) rfl
  rw [Function.update_eq_self] at hset
  refine ⟨{ s with jobs := Function.update s.jobs c (some { j with env := some s.cpu }), cpu := ⟨none, .setPrev⟩ }, ?_,
    q, code, none, none, ?_, hset.congr rfl rfl rfl rfl, ?_⟩
  · simp only [schedulerYield, ok_bind, hcurr, modify_eq _ hj, jump, sch, hs, henv, if_true]
  · have hlinks : links { s with jobs := Function.update s.jobs c (some { j with env := some s.cpu }) } = links s :=
      links_kept hj rfl
    exact hl.congr fun a _ => congrFun hlinks a
  · obtain ⟨env, head, curr, prev⟩ := sc
    cases henv
    cases hhead
    cases hcurr
    exact .dispatch hs rfl (fun b hb => Option.some.inj hb ▸ hc) trivial

theorem NotStarted.code_eq (h : NotStarted s) (hm : Mem junk q code run left s) (hs : s.schObj = .live sc)
    (hcurr : sc.curr = some c) (hc : c ∈ q) : code (some c) = none := by
  obtain ⟨sc', c', j', hs', hcurr', hj', hst⟩ := h
  cases hs.symm.trans hs'
  cases hcurr.symm.trans hcurr'
  obtain ⟨j, hj, -, -, -, -, h1⟩ := hm.job c hc
  cases hj.symm.trans hj'
  rw [Option.eq_none_iff_forall_not_mem]
  intro pc hpc
  have := (h1 pc hpc).1
  omega

/-- SIGALRM, where it does no harm. -/
theorem alarm_ok (h : Inv junk s) (ha : NotStarted s ∨ s.cpu.pc.inJob = true) :
    ∃ s', schedulerYield s = .ok s' ∧ Inv junk s' := by
  obtain ⟨q, code, run, left, hl, hm, hp⟩ := h
  -- in all but one phase only a job that has not been started makes it so
  have hout : s.cpu.pc.inJob = false → NotStarted s := fun h => ha.resolve_right (by rw [h]; exact fun h => by cases h)
  cases hp with
  | @main pc hs hcpu hcode hnone hpc =>
    have hn : NotStarted s := by
      apply hout
      rw [hcpu]
      rcases hpc with rfl | rfl | ⟨fnc, arg, p, rfl, -⟩ <;> rfl
    obtain ⟨sc, c, j, hs', hcurr, -⟩ := hn
    cases hs.symm.trans hs'
    cases hcurr
  | @dispatch pc curr prev hs hcpu hcurr hd =>
    have hn : NotStarted s := by
      apply hout
      rw [hcpu]
      cases pc <;> first | rfl | exact hd.elim
    obtain ⟨sc, c, j, hs', hc, -⟩ := id hn
    cases hs.symm.trans hs'
    have hmem : c ∈ q := hcurr c hc
    refine yield_ok hm hl hs rfl rfl hc hmem ?_ (fun _ h => by cases h)
    rw [hn.code_eq hm hs hc hmem]
    exact fun _ h => by cases h
  | @starting bs as c hq hs hcpu hcode =>
    have hmem : c ∈ q := by simp [hq]
    refine yield_ok hm hl hs rfl rfl rfl hmem ?_ (fun _ h => by cases h)
    rw [hcode]
    exact fun _ h => by cases h
  | @running bs as c pc hq hs hcpu hcode hr =>
    have hmem : c ∈ q := by simp [hq]
    refine yield_ok hm hl hs rfl rfl rfl hmem ?_ fun b hb => (Option.some.inj hb).symm
    intro pc' hpc'
    cases hcode.symm.trans hpc'
    exact hcpu
  | @leaving bs as c pc curr _ hq hcq hs hcpu hleave =>
    have hn : NotStarted s := by
      apply hout
      rw [hcpu]
      cases pc <;> first | rfl | exact hleave.elim
    obtain ⟨sc, c', j', hs', hcurr, hj', hst⟩ := id hn
    cases hs.symm.trans hs'
    cases pc with
    | freeStack =>
      obtain ⟨rfl, -, ⟨j, hj, -, h1⟩, -⟩ := hleave
      cases hcurr
      cases hj.symm.trans hj'
      omega
    | freeJob =>
      obtain ⟨rfl, -, ⟨j, hj, h1⟩, -⟩ := hleave
      cases hcurr
      cases hj.symm.trans hj'
      omega
    | currPrev =>
      obtain ⟨rfl, -, hj⟩ := hleave
      cases hcurr
      cases hj.symm.trans hj'
    | jump =>
      obtain ⟨rfl, rfl⟩ := hleave
      have hmem : c' ∈ q := hq ▸ List.mem_append_left _ (List.mem_of_getLast? hcurr)
      refine yield_ok hm hl hs rfl rfl hcurr hmem ?_ (fun _ h => by cases h)
      rw [hn.code_eq hm hs hcurr hmem]
      exact fun _ h => by cases h
    | _ => exact hleave.elim
  | ended hq hs hpc =>
    have hn : NotStarted s := by
      apply hout
      rcases hpc with h | h <;> rw [h] <;> rfl
    obtain ⟨sc, c, j, hs', -⟩ := hn
    cases hs.symm.trans hs'

/-! ## `scheduler_execute` -/

theorem InQueue.mem (h : InQueue s a) (hl : Linked (links s) q) (hs : s.schObj = .live sc) (hhead : sc.head = q.head?) :
    a ∈ q := by
  obtain ⟨sc', q', hs', hhead', hl', ha⟩ := h
  cases hs.symm.trans hs'
  rwa [hl.eq_of_head hl' (hhead.symm.trans hhead')]

theorem link_of_append {as bs : List Nat} (hl : Linked (links s) (bs ++ c :: as)) :
    ∃ j, s.jobs c = some j ∧ j.next = as.head? :=
  Option.map_eq_some_iff.mp hl.next_eq

/-- The next job is chosen. -/
theorem choose_ok (hm : Mem junk q code none none s) (hl : Linked (links s) q)
    (hs : s.schObj = .live ⟨true, q.head?, curr, prev⟩) (hcpu : s.cpu = ⟨none, pc⟩) (hcurr : ∀ c, curr = some c → c ∈ q)
    (hd : Dispatching s q code curr prev pc)
    (hpc : pc = .setPrev ∨ pc = .testNext ∨ pc = .toHead ∨ pc = .noPrev ∨ pc = .toNext ∨ pc = .testCurr) :
    ∃ s', stmt junk s = some (.ok s') ∧ Inv junk s' := by
  have hgo : ∀ pc : Pc Fnc Arg, (⟨s.cpu.stack, pc⟩ : Ctx Fnc Arg) = ⟨none, pc⟩ := by
    rw [hcpu]
    exact fun _ => rfl
  rcases hpc with rfl | rfl | rfl | rfl | rfl | rfl
  · refine ⟨goto .testNext (withSch ⟨true, q.head?, curr, curr⟩ s), ?_, q, code, none, none, hl, hm.congr rfl rfl rfl rfl,
      .dispatch rfl (hgo _) hcurr rfl⟩
    simp only [stmt, hcpu, sch_eq hs, ok_bind]
  · cases curr with
    | none =>
      refine ⟨goto .toHead s, ?_, q, code, none, none, hl, hm.congr rfl rfl rfl rfl, .dispatch hs (hgo _) hcurr trivial⟩
      simp only [stmt, hcpu, sch_eq hs, ok_bind, if_true]
    | some c =>
      obtain ⟨bs, as, rfl⟩ := List.append_of_mem (hcurr c rfl)
      obtain ⟨j, hj, hn⟩ := link_of_append hl
      by_cases hnil : j.next = none
      · refine ⟨goto .toHead s, ?_, _, code, none, none, hl, hm.congr rfl rfl rfl rfl, .dispatch hs (hgo _) hcurr trivial⟩
        simp only [stmt, hcpu, sch_eq hs, ok_bind, reduceCtorEq, if_false, deref_eq hj, if_pos hnil]
      · obtain ⟨n, hjn⟩ := Option.ne_none_iff_exists'.mp hnil
        refine ⟨goto .toNext s, ?_, _, code, none, none, hl, hm.congr rfl rfl rfl rfl,
          .dispatch hs (hgo _) hcurr ⟨hd, c, n, rfl, ?_⟩⟩
        · simp only [stmt, hcpu, sch_eq hs, ok_bind, reduceCtorEq, if_false, deref_eq hj, if_neg hnil]
        · show links s c = some (some n)
          simp only [links, hj, Option.map_some, hjn]
  · refine ⟨goto .noPrev (withSch ⟨true, q.head?, q.head?, prev⟩ s), ?_, q, code, none, none, hl,
      hm.congr rfl rfl rfl rfl, .dispatch rfl (hgo _) (fun c hc => List.mem_of_mem_head? hc) rfl⟩
    simp only [stmt, hcpu, sch_eq hs, ok_bind]
  · refine ⟨goto .testCurr (withSch ⟨true, q.head?, curr, none⟩ s), ?_, q, code, none, none, hl,
      hm.congr rfl rfl rfl rfl, .dispatch rfl (hgo _) hcurr ⟨[], q, rfl, hd, rfl, id⟩⟩
    simp only [stmt, hcpu, sch_eq hs, ok_bind]
  · obtain ⟨rfl, c, n, rfl, hn⟩ := hd
    obtain ⟨bs, as, rfl⟩ := List.append_of_mem (hcurr c rfl)
    obtain ⟨j, hj, hjn⟩ := link_of_append hl
    have has : as.head? = some n := Option.some.inj (hl.next_eq.symm.trans hn)
    refine ⟨goto .testCurr (withSch ⟨true, (bs ++ c :: as).head?, some n, some c⟩ s), ?_, _, code, none, none, hl,
      hm.congr rfl rfl rfl rfl, .dispatch rfl (hgo _) ?_ ⟨bs ++ [c], as, ?_, has.symm, ?_, ?_⟩⟩
    · simp only [stmt, hcpu, sch_eq hs, ok_bind, deref_eq hj, hjn, has]
    · intro b hb
      cases hb
      exact List.mem_append_right _ (List.mem_cons_of_mem _ (List.mem_of_mem_head? has))
    · rw [List.append_assoc, List.singleton_append]
    · exact List.getLast?_concat.symm
    · rintro rfl
      cases has
  · obtain ⟨bs, as, rfl, rfl, rfl, hend⟩ := hd
    cases as with
    | nil =>
      refine ⟨goto .freeSch s, ?_, _, code, none, none, hl, hm.congr rfl rfl rfl rfl,
        .dispatch hs (hgo _) hcurr (hend rfl)⟩
      simp only [stmt, hcpu, sch_eq hs, ok_bind, List.head?_nil, if_true]
    | cons c as =>
      refine ⟨goto .testStatus s, ?_, _, code, none, none, hl, hm.congr rfl rfl rfl rfl,
        .dispatch hs (hgo _) hcurr ⟨c, rfl, bs, as, rfl, rfl⟩⟩
      simp only [stmt, hcpu, sch_eq hs, ok_bind, List.head?_cons, reduceCtorEq, if_false]

/-- The job goes on where it was preempted. -/
theorem resume_ok {c : Nat} (hm : Mem junk q code none none s) (hl : Linked (links s) q)
    (hs : s.schObj = .live ⟨true, q.head?, curr, prev⟩) (hp : Placed q curr prev c) (hcode : code (some c) = some pc)
    (hu : Undisturbed s pc) : ∃ s', resume s = .ok s' ∧ Inv junk s' := by
  obtain ⟨rfl, bs, as, rfl, rfl⟩ := hp
  obtain ⟨j, hj, -, -, hstack, -, h1⟩ := hm.job c (by simp)
  obtain ⟨hmem, -, hset⟩ := hm.started c pc hcode
  have henv : j.env = some ⟨some c, pc⟩ := (h1 pc hcode).2.resolve_left (fun h => by cases h)
  refine ⟨{ s with cpu := ⟨some c, pc⟩ }, ?_, _, code, some c, none, hl, (hm.resumed _).congr rfl rfl rfl rfl,
    .running rfl hs rfl hcode ?_⟩
  · simp only [resume, sch_eq hs, ok_bind, deref_eq hj, henv, hstack, if_true]
  · have hqueue : ∀ l, InQueue s l → l ∈ bs ++ c :: as := fun l h => h.mem hl hs rfl
    unfold Running
    split
    · rename_i p
      cases p with
      | fill n i => exact hset
      | setHead i => exact hset.elim
      | toHead i => exact List.ne_nil_of_mem hmem
      | testNext i last =>
        obtain ⟨l, rfl, hlq⟩ := hu
        exact ⟨l, hqueue l hlq, rfl⟩
      | toNext i last =>
        obtain ⟨l, n, rfl, hlq, hn⟩ := hu
        exact ⟨l, hqueue l hlq, rfl, n, hn⟩
      | link i last =>
        obtain ⟨l, rfl, hlq, hn⟩ := hu
        exact ⟨l, hqueue l hlq, rfl, hn⟩
      | _ => trivial
    · -- it is the head, and nobody is before the head
      have hhead : (bs ++ c :: as).head? = some c := hset
      cases bs with
      | nil => rfl
      | cons b bs =>
        have hd := hm.nodup
        rw [Option.some.inj hhead, List.cons_append, List.nodup_cons] at hd
        exact absurd (by simp) hd.1
    · rintro rfl
      exact hu _ hs rfl
    · trivial

/-- The chosen job is given the processor. -/
theorem enter_ok (hm : Mem junk q code none none s) (hl : Linked (links s) q)
    (hs : s.schObj = .live ⟨true, q.head?, curr, prev⟩) (hcpu : s.cpu = ⟨none, pc⟩) (hcurr : ∀ c, curr = some c → c ∈ q)
    (hd : Dispatching s q code curr prev pc)
    (hpc : pc = .testStatus ∨ pc = .setRsp ∨ (∃ rsp, pc = .mov rsp) ∨ pc = .resume) (hact : Harmless s .stmt) :
    ∃ s', stmt junk s = some (.ok s') ∧ Inv junk s' := by
  have hgo : ∀ pc : Pc Fnc Arg, (⟨s.cpu.stack, pc⟩ : Ctx Fnc Arg) = ⟨none, pc⟩ := by
    rw [hcpu]
    exact fun _ => rfl
  rcases hpc with rfl | rfl | ⟨c, rfl⟩ | rfl
  · obtain ⟨c, hp⟩ := hd
    obtain rfl : curr = some c := hp.1
    obtain ⟨j, hj, -, -, -, h0, h1⟩ := hm.job c (hcurr c rfl)
    cases hcode : code (some c) with
    | none =>
      refine ⟨goto .setRsp s, ?_, q, code, none, none, hl, hm.congr rfl rfl rfl rfl,
        .dispatch hs (hgo _) hcurr ⟨c, hp, hcode⟩⟩
      simp only [stmt, hcpu, sch_eq hs, ok_bind, deref_eq hj, if_pos (h0 hcode)]
    | some pc =>
      refine ⟨goto .resume s, ?_, q, code, none, none, hl, hm.congr rfl rfl rfl rfl,
        .dispatch hs (hgo _) hcurr ⟨c, pc, hp, hcode⟩⟩
      have hne : j.status ≠ 0 := by
        rw [(h1 pc hcode).1]
        decide
      simp only [stmt, hcpu, sch_eq hs, ok_bind, deref_eq hj, if_neg hne]
  · obtain ⟨c, hp, hcode⟩ := hd
    obtain rfl : curr = some c := hp.1
    obtain ⟨j, hj, -, hstack, -⟩ := hm.job c (hcurr c rfl)
    refine ⟨goto (.mov c) s, ?_, q, code, none, none, hl, hm.congr rfl rfl rfl rfl,
      .dispatch hs (hgo _) hcurr ⟨hp, hcode⟩⟩
    simp only [stmt, hcpu, sch_eq hs, ok_bind, deref_eq hj, hstack]
  · obtain ⟨⟨rfl, bs, as, rfl, rfl⟩, hcode⟩ := hd
    obtain ⟨j, hj, -, -, hused, -⟩ := hm.job c (hcurr c rfl)
    refine ⟨{ s with cpu := ⟨some c, .setStatus⟩ }, ?_, _, code, none, none, hl, hm.congr rfl rfl rfl rfl,
      .starting rfl hs rfl hcode⟩
    simp only [stmt, hcpu, hused, if_true]
  · obtain ⟨c, pc, hp, hcode⟩ := hd
    obtain rfl : curr = some c := hp.1
    obtain ⟨j, hj, -, -, -, -, h1⟩ := hm.job c (hcurr c rfl)
    have henv : j.env = some ⟨some c, pc⟩ := (h1 pc hcode).2.resolve_left (fun h => by cases h)
    obtain ⟨s', hr, hi⟩ := resume_ok hm hl hs hp hcode (hact (by rw [hcpu]) _ c j _ hs rfl hj henv)
    refine ⟨s', ?_, hi⟩
    simp only [stmt, hcpu, hr]

/-! ## The job that runs -/

theorem start_ok (hm : Mem junk (bs ++ c :: as) code none none s) (hl : Linked (links s) (bs ++ c :: as))
    (hs : s.schObj = .live ⟨true, (bs ++ c :: as).head?, some c, bs.getLast?⟩) (hcpu : s.cpu = ⟨some c, .setStatus⟩)
    (hcode : code (some c) = none) : ∃ s', stmt junk s = some (.ok s') ∧ Inv junk s' := by
  have hc : c ∈ bs ++ c :: as := by simp
  obtain ⟨j, hj, -⟩ := hm.job c hc
  have hset := hm.set (some c) { j with status := 1 } (some .callFnc) hc hj ⟨rfl, rfl⟩
    ⟨(fun h => by cases h), fun _ _ => ⟨rfl, Or.inl rfl⟩⟩ (fun _ _ h => by cases h) (by rintro pc ⟨⟩; exact ⟨rfl, trivial⟩) (by rintro pc d ⟨⟩ hd; cases hd)
    (by rw [hcode]; rfl)
  have hlinks : links { s with jobs := Function.update s.jobs c (some { j with status := 1 }) } = links s :=
    links_kept hj rfl
  refine ⟨goto .callFnc { s with jobs := Function.update s.jobs c (some { j with status := 1 }) }, ?_, _, _, some c, none,
    hl.congr fun a _ => congrFun hlinks a, hset.congr rfl rfl rfl rfl, .running rfl hs ?_ (Function.update_self ..) trivial⟩
  · simp only [stmt, hcpu, sch_eq hs, ok_bind, modify_eq _ hj]
  · rw [goto, hcpu]

/-- A job is unlinked by what follows it, behind `prev` or at the head. -/
theorem unlink_ok (hm : Mem junk (bs ++ c :: as) code (some c) none s) (hl : Linked (links s) (bs ++ c :: as))
    (hs : s.schObj = .live ⟨true, (bs ++ c :: as).head?, some c, bs.getLast?⟩) (hcpu : s.cpu = ⟨some c, pc⟩)
    (hcode : code (some c) = some pc) (hr : Running s (bs ++ c :: as) bs pc) (hpc : pc = .headNext ∨ pc = .prevNext) :
    ∃ s', stmt junk s = some (.ok s') ∧ Inv junk s' := by
  have hc : c ∈ bs ++ c :: as := by simp
  have hd := hm.nodup
  rw [List.nodup_middle, List.nodup_cons] at hd
  obtain ⟨j, hj, hstart, -, hused, -, h1⟩ := hm.job c hc
  have htally : s.tally c = ⟨1, 1, 0, 0⟩ := by
    rw [hm.within c hc, hcode]
    rcases hpc with rfl | rfl <;> rfl
  obtain ⟨j', hj', hn⟩ := link_of_append hl
  obtain rfl : j' = j := Option.some.inj (hj'.symm.trans hj)
  have hgo : (⟨s.cpu.stack, .freeStack⟩ : Ctx Fnc Arg) = ⟨some c, .freeStack⟩ := by rw [hcpu]
  have has : Linked (links s) as := by
    rw [List.append_cons] at hl
    exact hl.suffix
  rcases hpc with rfl | rfl
  · have hbs : bs = [] := hr
    subst hbs
    have hm' : Mem junk as (Function.update code (some c) none) none (some c) s := hm.unlink
    refine ⟨goto .freeStack (withSch ⟨true, as.head?, some c, none⟩ s), ?_, as, _, none, some c, has,
      hm'.congr rfl rfl rfl rfl,
      .leaving (List.nil_append as).symm hd.1 rfl hgo ⟨rfl, rfl, ⟨_, hj, hstart, (h1 _ hcode).1⟩, hused, htally⟩⟩
    simp only [stmt, hcpu, sch_eq hs, ok_bind, List.nil_append, List.head?_cons, deref_eq hj, hn, List.getLast?_nil]
  · obtain ⟨bs, p, rfl⟩ := (List.eq_nil_or_concat bs).resolve_left hr
    rw [List.concat_eq_append] at *
    have hpq : p ∈ bs ++ [p] ++ c :: as := by simp
    have hne : c ≠ p := fun e => hd.1 (by simp [e])
    obtain ⟨i, hi, -⟩ := hm.job p hpq
    have hm' := (hm.setNext hpq hi as.head?).unlink
    refine ⟨goto .freeStack { s with jobs := Function.update s.jobs p (some { i with next := as.head? }) }, ?_,
      bs ++ [p] ++ as, _, none, some c, ?_, hm'.congr rfl rfl rfl rfl, .leaving rfl hd.1 ?_ hgo
      ⟨rfl, rfl, ⟨_, (Function.update_of_ne hne ..).trans hj, hstart, (h1 _ hcode).1⟩, hused, htally⟩⟩
    · simp only [stmt, hcpu, sch_eq hs, ok_bind, deref_eq hj, List.getLast?_concat, modify_eq _ hi, hn]
    · have hdp := hd.2
      rw [List.append_assoc, List.singleton_append, List.nodup_middle, List.nodup_cons, List.mem_append, not_or] at hdp
      rw [List.append_assoc, List.singleton_append] at hl
      rw [List.append_assoc, List.singleton_append]
      show Linked (links { s with jobs := Function.update s.jobs p (some { i with next := as.head? }) }) _
      rw [links_update]
      exact hl.relink has hdp.1.1 hdp.1.2
    · show s.schObj = _
      rw [hs]
      cases bs <;> rfl

/-- A statement of the running job. -/
theorem running_ok (hm : Mem junk (bs ++ c :: as) code (some c) none s) (hl : Linked (links s) (bs ++ c :: as))
    (hs : s.schObj = .live ⟨true, (bs ++ c :: as).head?, some c, bs.getLast?⟩) (hcpu : s.cpu = ⟨some c, pc⟩)
    (hcode : code (some c) = some pc) (hr : Running s (bs ++ c :: as) bs pc) {r : Except Stop (St Fnc Arg)}
    (hstmt : stmt junk s = some r) : ∃ s', r = .ok s' ∧ Inv junk s' := by
  have hc : c ∈ bs ++ c :: as := by simp
  have hgo : ∀ pc : Pc Fnc Arg, (⟨s.cpu.stack, pc⟩ : Ctx Fnc Arg) = ⟨some c, pc⟩ := by
    rw [hcpu]
    exact fun _ => rfl
  have hin := (hm.started c pc hcode).2.1
  cases pc with
  | body fnc arg =>
    rw [stmt, hcpu] at hstmt
    cases hstmt
  | callFnc =>
    obtain ⟨j, hj, -⟩ := hm.job c hc
    have hm' := hm.move (.body j.fnc j.arg) hcode (fun _ h => by cases h) rfl fun _ _ => ⟨rfl, trivial⟩
    simp only [stmt, hcpu, sch_eq hs, ok_bind, deref_eq hj, Option.some.injEq] at hstmt
    exact ⟨_, hstmt.symm, _, _, some c, none, hl, hm'.congr rfl rfl rfl rfl,
      .running rfl hs (hgo _) (Function.update_self ..) trivial⟩
  | testPrev =>
    simp only [stmt, hcpu, sch_eq hs, ok_bind, Option.some.injEq] at hstmt
    by_cases hbs : bs = []
    · subst hbs
      have hm' := hm.move .headNext hcode (fun _ h => by cases h) rfl (by rintro a ⟨⟩; exact ⟨rfl, rfl⟩)
      rw [List.getLast?_nil, if_pos rfl] at hstmt
      exact ⟨_, hstmt.symm, _, _, some c, none, hl, hm'.congr rfl rfl rfl rfl,
        .running rfl hs (hgo _) (Function.update_self ..) rfl⟩
    · have hm' := hm.move .prevNext hcode (fun _ h => by cases h) rfl fun _ _ => ⟨rfl, trivial⟩
      rw [if_neg (by simpa using hbs)] at hstmt
      exact ⟨_, hstmt.symm, _, _, some c, none, hl, hm'.congr rfl rfl rfl rfl,
        .running rfl hs (hgo _) (Function.update_self ..) hbs⟩
  | headNext =>
    obtain ⟨s', hs', hi⟩ := unlink_ok hm hl hs hcpu hcode hr (Or.inl rfl)
    exact ⟨s', Option.some.inj (hstmt.symm.trans hs'), hi⟩
  | prevNext =>
    obtain ⟨s', hs', hi⟩ := unlink_ok hm hl hs hcpu hcode hr (Or.inr rfl)
    exact ⟨s', Option.some.inj (hstmt.symm.trans hs'), hi⟩
  | create caller fnc arg p =>
    obtain ⟨s', new, hs', hafter⟩ := Creating.creates ⟨hm, hl, hs, rfl, hcode, hr⟩
    have hstep : r = .ok s' := by
      simp only [stmt, hcpu, hs', Option.some.injEq] at hstmt
      exact hstmt.symm
    have hhead : (bs ++ c :: as ++ new).head? = (bs ++ c :: as).head? := by cases bs <;> rfl
    have hq : bs ++ c :: as ++ new = bs ++ c :: (as ++ new) := by simp
    refine ⟨s', hstep, ?_⟩
    rcases hafter with ⟨p', h, hw⟩ | h
    · refine ⟨_, _, some c, none, h.linked, h.mem, .running hq h.schObj (h.cpu.trans (hgo _)) (Function.update_self ..) hw⟩
    · obtain ⟨f, x, rfl⟩ : ∃ f x, caller = some (f, x) := by
        cases caller with
        | none => cases hin
        | some f => exact ⟨f.1, f.2, rfl⟩
      exact ⟨_, _, some c, none, h.linked, h.mem,
        .running hq h.schObj (h.cpu.trans (hgo _)) (Function.update_self ..) trivial⟩
  | _ => cases hin

/-- What is left of a job is freed. -/
theorem leaving_ok (hm : Mem junk (bs ++ as) code none left s) (hl : Linked (links s) (bs ++ as)) (hc : c ∉ bs ++ as)
    (hs : s.schObj = .live ⟨true, (bs ++ as).head?, curr, bs.getLast?⟩) (hcpu : s.cpu = ⟨some c, pc⟩)
    (hleave : Leaving s bs c curr left pc) : ∃ s', stmt junk s = some (.ok s') ∧ Inv junk s' := by
  have hgo : ∀ pc : Pc Fnc Arg, (⟨s.cpu.stack, pc⟩ : Ctx Fnc Arg) = ⟨some c, pc⟩ := by
    rw [hcpu]
    exact fun _ => rfl
  cases pc with
  | freeStack =>
    obtain ⟨rfl, rfl, ⟨j, hj, hstart, hst⟩, hused, htally⟩ := hleave
    let u : St Fnc Arg := note c (fun t => { t with stackFreed := t.stackFreed + 1 })
      { s with stackUsed := Function.update s.stackUsed c false }
    have hm' := hm.release u hc (by rw [htally]; exact fun h => by cases h) (fun _ _ => rfl) (fun b hb => Function.update_of_ne hb ..)
      (fun b hb => Function.update_of_ne hb ..) rfl (Or.inl rfl)
    refine ⟨goto .freeJob u, ?_, _, code, none, some c, hl, hm'.congr rfl rfl rfl rfl,
      .leaving rfl hc hs (hgo .freeJob) ⟨rfl, rfl, ⟨j, hj, hst⟩, ?_⟩⟩
    · simp only [stmt, hcpu]
      simp only [sch_eq hs, ok_bind, deref_eq hj, hstart, Preempt.freeStack, hused, if_true]
      rfl
    · refine (Function.update_self ..).trans ?_
      show (Tally.mk (s.tally c).created _ _ _) = _
      rw [htally]
  | freeJob =>
    obtain ⟨rfl, rfl, ⟨j, hj, hst⟩, htally⟩ := hleave
    let u : St Fnc Arg := note c (fun t => { t with jobFreed := t.jobFreed + 1 })
      { s with jobs := Function.update s.jobs c none }
    have hfreed : u.tally c = ⟨1, 1, 1, 1⟩ := by
      refine (Function.update_self ..).trans ?_
      show (Tally.mk (s.tally c).created _ _ _) = _
      rw [htally]
    have hm' : Mem junk (bs ++ as) code none none u := hm.release u hc (by rw [htally]; exact fun h => by cases h)
      (fun b hb => Function.update_of_ne hb ..) (fun _ _ => rfl) (fun b hb => Function.update_of_ne hb ..) rfl
      (Or.inr hfreed)
    refine ⟨goto .currPrev u, ?_, _, code, none, none, hl.congr fun a ha => ?_, hm'.congr rfl rfl rfl rfl,
      .leaving rfl hc hs (hgo .currPrev) ⟨rfl, rfl, Function.update_self ..⟩⟩
    · simp only [stmt, hcpu]
      simp only [sch_eq hs, ok_bind, Preempt.freeJob, hj]
      rfl
    · have hne : a ≠ c := fun e => hc (e ▸ ha)
      exact congrArg (Option.map Job.next) (Function.update_of_ne hne ..)
  | currPrev =>
    obtain ⟨rfl, rfl, hj⟩ := hleave
    refine ⟨goto .jump (withSch ⟨true, (bs ++ as).head?, bs.getLast?, bs.getLast?⟩ s), ?_, _, code, none, none, hl,
      hm.congr rfl rfl rfl rfl, .leaving rfl hc rfl (hgo .jump) ⟨rfl, rfl⟩⟩
    simp only [stmt, hcpu, sch_eq hs, ok_bind]
  | jump =>
    obtain ⟨rfl, rfl⟩ := hleave
    refine ⟨{ s with cpu := ⟨none, .setPrev⟩ }, ?_, _, code, none, none, hl, hm.congr rfl rfl rfl rfl,
      .dispatch hs rfl (fun b hb => List.mem_append_left _ (List.mem_of_getLast? hb)) trivial⟩
    simp only [stmt, hcpu, jump, sch_eq hs, ok_bind, if_true]
  | _ => exact hleave.elim

end Cs238p.Sched.Preempt
