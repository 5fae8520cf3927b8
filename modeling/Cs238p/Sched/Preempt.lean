/-
  Cs238p.Sched.Preempt — the scheduler, preempted (`project-2/scheduler.c`).

  One step is one statement, or the evaluation of one condition, of `scheduler_create` or
  `scheduler_execute`; between any two of them, and in the code of a job, SIGALRM may arrive:
  `interrupt_handler` calls `scheduler_yield`, in one step. A job's own call of
  `scheduler_yield` is the same step. The project is built with `-ansi`, whose `signal` does
  not block the signal in its handler: after the `longjmp` the next one can arrive.

  `setjmp` saves where the processor is (`Ctx`): on which stack, and at which point, with the
  locals of the call it is in (`Pc`). The stack of `main` is the one `scheduler_execute` is
  called on; the `longjmp` back to its `setjmp` unwinds what lies below, so a context saved on
  that stack by the handler cannot be resumed (`Stop.jump`).

  `malloc` never fails and never answers what it answered before; the job it answers holds
  `junk`. The stack of job `k` is stack `k`; that a job which finishes still runs on the stack
  it has freed is not modelled.

  `tally` counts what has happened to each job.
-/
import Cs238p.Lib.LinkedList
import Cs238p.Sched.Scheduler

namespace Cs238p.Sched.Preempt

variable {Fnc Arg : Type}

/-- The points of `scheduler_create`: the statement that is next. -/
inductive CreateAt where
  /-- `if (NULL == sch_obj)` -/
  | testObj
  | pageSize
  | malloc
  /-- The assignment number `n` to the new job. -/
  | fill (n j : Nat)
  /-- `if (NULL == sch_obj->head)` -/
  | testHead (j : Nat)
  | setHead (j : Nat)
  /-- `last = sch_obj->head` -/
  | toHead (j : Nat)
  /-- `while (NULL != last->next)` -/
  | testNext (j : Nat) (last : Option Nat)
  /-- `last = last->next` -/
  | toNext (j : Nat) (last : Option Nat)
  /-- `last->next = j` -/
  | link (j : Nat) (last : Option Nat)
  | ret (r : Int)
  deriving DecidableEq, Repr

/-- The points of the program. -/
inductive Pc (Fnc Arg : Type) where
  /-- In `main`, before `scheduler_execute`. -/
  | main
  /-- In `scheduler_create (fnc, arg)`, called by `main` (`none`) or by the code of a job. -/
  | create (caller : Option (Fnc × Arg)) (fnc : Fnc) (arg : Arg) (p : CreateAt)
  | setjmp
  /-- `prev = curr` -/
  | setPrev
  /-- `if (curr == NULL || curr->next == NULL)` -/
  | testNext
  /-- `curr = head` -/
  | toHead
  /-- `prev = NULL` -/
  | noPrev
  /-- `curr = curr->next` -/
  | toNext
  /-- `if (NULL == curr)` -/
  | testCurr
  | freeSch
  | ret
  /-- `if (curr->status == 0)` -/
  | testStatus
  | setRsp
  | mov (rsp : Nat)
  | setStatus
  | callFnc
  /-- In the code of a job. -/
  | body (fnc : Fnc) (arg : Arg)
  /-- `if (NULL == prev)` -/
  | testPrev
  /-- `head = head->next` -/
  | headNext
  /-- `prev->next = curr->next` -/
  | prevNext
  | freeStack
  | freeJob
  /-- `curr = prev` -/
  | currPrev
  /-- `longjmp (sch_obj->env, 1)` -/
  | jump
  /-- `longjmp (curr->env, 1)` -/
  | resume
  /-- `scheduler_execute` has returned. -/
  | returned
  deriving DecidableEq, Repr

/-- What `setjmp` saves; `none` is the stack of `main`. -/
structure Ctx (Fnc Arg : Type) where
  stack : Option Nat
  pc : Pc Fnc Arg
  deriving DecidableEq, Repr

/-- `struct job`; of `stack_addr`, the stack it points into. -/
structure Job (Fnc Arg : Type) where
  startAddr : Nat
  stackAddr : Nat
  fnc : Fnc
  arg : Arg
  env : Option (Ctx Fnc Arg)
  status : Nat
  next : Option Nat
  deriving DecidableEq, Repr

/-- How often a job was put into the queue, its function returned, its stack and the job
    itself were freed. -/
structure Tally where
  created : Nat
  finished : Nat
  stackFreed : Nat
  jobFreed : Nat
  deriving DecidableEq, Repr

structure St (Fnc Arg : Type) where
  jobs : Nat → Option (Job Fnc Arg)
  /-- Which stacks are allocated. -/
  stackUsed : Nat → Bool
  /-- How many jobs have been allocated. -/
  mallocs : Nat
  schObj : SchObj
  cpu : Ctx Fnc Arg
  tally : Nat → Tally

/-- The state after `scheduler_init`, which sets neither `curr` nor `prev`: both are taken as
    NULL. -/
def start : St Fnc Arg :=
  { jobs := fun _ => none, stackUsed := fun _ => false, mallocs := 0,
    schObj := .live { env := false, head := none, curr := none, prev := none }, cpu := ⟨none, .main⟩,
    tally := fun _ => ⟨0, 0, 0, 0⟩ }

/-! ## Memory -/

/-- `*sch_obj`. -/
def sch (s : St Fnc Arg) : Except Stop Scheduler :=
  match s.schObj with
  | .null => .error .null
  | .freed => .error .freed
  | .live sch => .ok sch

/-- `*p`. -/
def deref (s : St Fnc Arg) : Option Nat → Except Stop (Job Fnc Arg)
  | none => .error .null
  | some a =>
    match s.jobs a with
    | none => .error .freed
    | some j => .ok j

/-- `*p := f (*p)`. -/
def modify (p : Option Nat) (f : Job Fnc Arg → Job Fnc Arg) (s : St Fnc Arg) : Except Stop (St Fnc Arg) :=
  match p with
  | none => .error .null
  | some a =>
    match s.jobs a with
    | none => .error .freed
    | some j => .ok { s with jobs := Function.update s.jobs a (some (f j)) }

def note (a : Nat) (f : Tally → Tally) (s : St Fnc Arg) : St Fnc Arg :=
  { s with tally := Function.update s.tally a (f (s.tally a)) }

/-- `free (start_addr)`. -/
def freeStack (a : Nat) (s : St Fnc Arg) : Except Stop (St Fnc Arg) :=
  if s.stackUsed a then
    .ok (note a (fun t => { t with stackFreed := t.stackFreed + 1 })
      { s with stackUsed := Function.update s.stackUsed a false })
  else
    .error .freed

/-- `free (p)`. -/
def freeJob (p : Option Nat) (s : St Fnc Arg) : Except Stop (St Fnc Arg) :=
  match p with
  | none => .ok s
  | some a =>
    match s.jobs a with
    | none => .error .freed
    | some _ =>
      .ok (note a (fun t => { t with jobFreed := t.jobFreed + 1 }) { s with jobs := Function.update s.jobs a none })

def goto (pc : Pc Fnc Arg) (s : St Fnc Arg) : St Fnc Arg := { s with cpu := { s.cpu with pc } }

def withSch (sch : Scheduler) (s : St Fnc Arg) : St Fnc Arg := { s with schObj := .live sch }

/-! ## The statements -/

/-- The assignments to the new job, in order. -/
def fills (j : Nat) (fnc : Fnc) (arg : Arg) : List (Job Fnc Arg → Job Fnc Arg) :=
  -- `malloc (4*page_size_v)`
  [fun c => { c with startAddr := j },
   -- `memory_align`, and three pages on: still in the stack
   fun c => { c with stackAddr := c.startAddr },
   fun c => { c with stackAddr := c.stackAddr },
   fun c => { c with fnc := fnc },
   fun c => { c with arg := arg },
   fun c => { c with status := 0 },
   fun c => { c with next := none }]

/-- `j` is in the queue from here on. -/
def enlisted (j : Nat) (s : St Fnc Arg) : St Fnc Arg := note j (fun t => { t with created := t.created + 1 }) s

/-- The next statement of `scheduler_create`. -/
def createStmt (junk : Nat → Job Fnc Arg) (caller : Option (Fnc × Arg)) (fnc : Fnc) (arg : Arg) (s : St Fnc Arg) :
    CreateAt → Except Stop (St Fnc Arg)
  | .testObj => .ok (goto (.create caller fnc arg (if s.schObj = .null then .ret (-1) else .pageSize)) s)
  | .pageSize => .ok (goto (.create caller fnc arg .malloc) s)
  | .malloc =>
    .ok (goto (.create caller fnc arg (.fill 0 s.mallocs))
      { s with jobs := Function.update s.jobs s.mallocs (some (junk s.mallocs)), mallocs := s.mallocs + 1 })
  | .fill n j => do
    let s := if n = 0 then { s with stackUsed := Function.update s.stackUsed j true } else s
    let s ← modify (some j) ((fills j fnc arg)[n]?.getD id) s
    .ok (goto (.create caller fnc arg (if n + 1 < (fills j fnc arg).length then .fill (n + 1) j else .testHead j)) s)
  | .testHead j => do
    let sch ← sch s
    .ok (goto (.create caller fnc arg (if sch.head = none then .setHead j else .toHead j)) s)
  | .setHead j => do
    let sch ← sch s
    .ok (goto (.create caller fnc arg (.ret 0)) (enlisted j (withSch { sch with head := some j } s)))
  | .toHead j => do
    let sch ← sch s
    .ok (goto (.create caller fnc arg (.testNext j sch.head)) s)
  | .testNext j last => do
    let l ← deref s last
    .ok (goto (.create caller fnc arg (if l.next = none then .link j last else .toNext j last)) s)
  | .toNext j last => do
    let l ← deref s last
    .ok (goto (.create caller fnc arg (.testNext j l.next)) s)
  | .link j last => do
    let s ← modify last (fun l => { l with next := some j }) s
    .ok (goto (.create caller fnc arg (.ret 0)) (enlisted j s))
  | .ret _ =>
    match caller with
    | none => .ok (goto .main s)
    | some (fnc, arg) => .ok (goto (.body fnc arg) s)

/-- `longjmp (sch_obj->env, 1)`. -/
def jump (s : St Fnc Arg) : Except Stop (St Fnc Arg) := do
  let sch ← sch s
  if sch.env then .ok { s with cpu := ⟨none, .setPrev⟩ } else .error .jump

/-- `longjmp (curr->env, 1)`. -/
def resume (s : St Fnc Arg) : Except Stop (St Fnc Arg) := do
  let sch ← sch s
  let c ← deref s sch.curr
  match c.env with
  | none => .error .jump
  -- what lay on the stack of `main` has been unwound
  | some ⟨none, _⟩ => .error .jump
  | some ⟨some a, pc⟩ => if s.stackUsed a then .ok { s with cpu := ⟨some a, pc⟩ } else .error .freed

/-- The next statement; `none` where it is for `main` or for the code of a job to go on. -/
def stmt (junk : Nat → Job Fnc Arg) (s : St Fnc Arg) : Option (Except Stop (St Fnc Arg)) :=
  match s.cpu.pc with
  | .main => none
  | .create caller fnc arg p => some (createStmt junk caller fnc arg s p)
  | .setjmp => some do
    let sch ← sch s
    .ok (goto .setPrev (withSch { sch with env := true } s))
  | .setPrev => some do
    let sch ← sch s
    .ok (goto .testNext (withSch { sch with prev := sch.curr } s))
  | .testNext => some do
    let sch ← sch s
    if sch.curr = none then .ok (goto .toHead s)
    else do
      let c ← deref s sch.curr
      .ok (goto (if c.next = none then .toHead else .toNext) s)
  | .toHead => some do
    let sch ← sch s
    .ok (goto .noPrev (withSch { sch with curr := sch.head } s))
  | .noPrev => some do
    let sch ← sch s
    .ok (goto .testCurr (withSch { sch with prev := none } s))
  | .toNext => some do
    let sch ← sch s
    let c ← deref s sch.curr
    .ok (goto .testCurr (withSch { sch with curr := c.next } s))
  | .testCurr => some do
    let sch ← sch s
    .ok (goto (if sch.curr = none then .freeSch else .testStatus) s)
  | .freeSch => some do
    let _ ← sch s
    .ok (goto .ret { s with schObj := .freed })
  | .ret => some (.ok (goto .returned s))
  | .testStatus => some do
    let sch ← sch s
    let c ← deref s sch.curr
    .ok (goto (if c.status = 0 then .setRsp else .resume) s)
  | .setRsp => some do
    let sch ← sch s
    let c ← deref s sch.curr
    .ok (goto (.mov c.stackAddr) s)
  | .mov rsp => some (if s.stackUsed rsp then .ok { s with cpu := ⟨some rsp, .setStatus⟩ } else .error .freed)
  | .setStatus => some do
    let sch ← sch s
    let s ← modify sch.curr (fun c => { c with status := 1 }) s
    .ok (goto .callFnc s)
  | .callFnc => some do
    let sch ← sch s
    let c ← deref s sch.curr
    .ok (goto (.body c.fnc c.arg) s)
  | .body _ _ => none
  | .testPrev => some do
    let sch ← sch s
    .ok (goto (if sch.prev = none then .headNext else .prevNext) s)
  | .headNext => some do
    let sch ← sch s
    let h ← deref s sch.head
    .ok (goto .freeStack (withSch { sch with head := h.next } s))
  | .prevNext => some do
    let sch ← sch s
    let c ← deref s sch.curr
    let s ← modify sch.prev (fun p => { p with next := c.next }) s
    .ok (goto .freeStack s)
  | .freeStack => some do
    let sch ← sch s
    let c ← deref s sch.curr
    let s ← freeStack c.startAddr s
    .ok (goto .freeJob s)
  | .freeJob => some do
    let sch ← sch s
    let s ← freeJob sch.curr s
    .ok (goto .currPrev s)
  | .currPrev => some do
    let sch ← sch s
    .ok (goto .jump (withSch { sch with curr := sch.prev } s))
  | .jump => some (jump s)
  | .resume => some (resume s)
  | .returned => none

/-- `scheduler_yield`. -/
def schedulerYield (s : St Fnc Arg) : Except Stop (St Fnc Arg) := do
  let sch ← sch s
  let s ← modify sch.curr (fun c => { c with env := some s.cpu }) s
  jump s

/-! ## Runs -/

inductive Act (Fnc Arg : Type) where
  | stmt
  /-- `main` or a job calls `scheduler_create`. -/
  | create (fnc : Fnc) (arg : Arg)
  /-- `main` calls `scheduler_execute`. -/
  | execute
  /-- The function of the running job returns. -/
  | finish
  /-- SIGALRM arrives, or the running job calls `scheduler_yield`. -/
  | alarm
  deriving DecidableEq, Repr

/-- One step; `none` where it is not possible. -/
def step (junk : Nat → Job Fnc Arg) (s : St Fnc Arg) : Act Fnc Arg → Option (Except Stop (St Fnc Arg))
  | .stmt => stmt junk s
  | .create fnc arg =>
    match s.cpu.pc with
    | .main => some (.ok (goto (.create none fnc arg .testObj) s))
    | .body f a => some (.ok (goto (.create (some (f, a)) fnc arg .testObj) s))
    | _ => none
  | .execute =>
    match s.cpu.pc with
    | .main => some (.ok (goto .setjmp s))
    | _ => none
  | .finish =>
    match s.cpu with
    | ⟨some a, .body _ _⟩ => some (.ok (goto .testPrev (note a (fun t => { t with finished := t.finished + 1 }) s)))
    | _ => none
  | .alarm =>
    match s.cpu.pc with
    | .main | .returned => none
    | _ => some (schedulerYield s)

/-- The states that runs of allowed steps reach. -/
inductive Reach (junk : Nat → Job Fnc Arg) (allowed : St Fnc Arg → Act Fnc Arg → Prop) : St Fnc Arg → Prop
  | start : Reach junk allowed start
  | step {s s' : St Fnc Arg} {act : Act Fnc Arg} : Reach junk allowed s → allowed s act →
      step junk s act = some (.ok s') → Reach junk allowed s'

end Cs238p.Sched.Preempt
