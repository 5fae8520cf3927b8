/-
  Cs238p.Sched.Scheduler — the cooperative scheduler (`project-2/scheduler.c`).

  Memory. `malloc` never fails. The `k`-th `scheduler_create` answers job `k` and stack
  `k`, an address nothing else ever has, so a use of a freed job is seen as one
  (`Stop.freed`). `sch_obj->curr` and `sch_obj->prev` are NULL after `scheduler_init`
  (`malloc` leaves them unset; `prev` is written before it is read).

  The processor runs `main` or the code of a job: a `Ctx` is what `setjmp` saves of the
  latter, the stack it runs on and how far `fnc (arg)` has come, counted in slices. A slice
  (`Slice`) is what a job does from being given the processor until it calls
  `scheduler_yield`, itself or from `interrupt_handler` when SIGALRM arrives, or until its
  function returns: it creates jobs, and nothing else the scheduler sees. What the jobs do is
  arbitrary: `run` takes their slices in the order in which they get the processor.

  `longjmp (sch_obj->env)` continues `scheduler_execute` behind its `setjmp`: `dispatch`.
  A finishing job gives back its stack and its job and jumps at once; that this code still
  runs on the stack just freed is not modelled.
-/
import Mathlib.Logic.Function.Basic

namespace Cs238p.Sched

variable {Fnc Arg : Type}

/-- Why the program stops before its end. -/
inductive Stop where
  /-- NULL is dereferenced. -/
  | null
  /-- What was freed, or never allocated, is used or freed again. -/
  | freed
  /-- `longjmp` without a `setjmp` before it. -/
  | jump
  /-- The walk to the end of the queue does not end. -/
  | fuel
  deriving DecidableEq, Repr

/-- The point a job's code has reached. -/
structure Ctx (Fnc Arg : Type) where
  stack : Nat
  fnc : Fnc
  arg : Arg
  slice : Nat
  deriving DecidableEq, Repr

/-- `struct job`. -/
structure Job (Fnc Arg : Type) where
  startAddr : Nat
  fnc : Fnc
  arg : Arg
  env : Option (Ctx Fnc Arg)
  status : Nat
  next : Option Nat
  deriving DecidableEq, Repr

/-- `struct scheduler`. -/
structure Scheduler where
  /-- `setjmp (sch_obj->env)` has been called. -/
  env : Bool
  head : Option Nat
  curr : Option Nat
  prev : Option Nat
  deriving DecidableEq, Repr

/-- `sch_obj`. -/
inductive SchObj where
  | null
  | freed
  | live (sch : Scheduler)
  deriving DecidableEq, Repr

inductive Cpu (Fnc Arg : Type) where
  | main
  | job (ctx : Ctx Fnc Arg)
  deriving DecidableEq, Repr

structure St (Fnc Arg : Type) where
  jobs : Nat → Option (Job Fnc Arg)
  /-- Which stacks are allocated, by their `start_addr`. -/
  stackUsed : Nat → Bool
  /-- How many jobs have been allocated. -/
  mallocs : Nat
  schObj : SchObj
  cpu : Cpu Fnc Arg

/-- The state before `scheduler_init`. -/
def start : St Fnc Arg := ⟨fun _ => none, fun _ => false, 0, .null, .main⟩

/-! ## Memory -/

/-- `*sch_obj`. -/
def sch (s : St Fnc Arg) : Except Stop Scheduler :=
  match s.schObj with
  | .null => .error .null
  | .freed => .error .freed
  | .live sch => .ok sch

/-- `*p`. -/
def deref (s : St Fnc Arg) : Option Nat → Except Stop (Job Fnc Arg)
  | none => .error .null
  | some a =>
    match s.jobs a with
    | none => .error .freed
    | some j => .ok j

/-- `*p := f (*p)`. -/
def modify (p : Option Nat) (f : Job Fnc Arg → Job Fnc Arg) (s : St Fnc Arg) : Except Stop (St Fnc Arg) :=
  match p with
  | none => .error .null
  | some a =>
    match s.jobs a with
    | none => .error .freed
    | some j => .ok { s with jobs := Function.update s.jobs a (some (f j)) }

/-- `free (p->start_addr); free (p)`. -/
def freeJob (p : Option Nat) (s : St Fnc Arg) : Except Stop (St Fnc Arg) :=
  match p with
  | none => .error .null
  | some a =>
    match s.jobs a with
    | none => .error .freed
    | some j =>
      if s.stackUsed j.startAddr then
        .ok { s with jobs := Function.update s.jobs a none,
                     stackUsed := Function.update s.stackUsed j.startAddr false }
      else
        .error .freed

/-! ## The functions -/

def schedulerInit (s : St Fnc Arg) : St Fnc Arg :=
  { s with schObj := .live { env := false, head := none, curr := none, prev := none } }

/-- `while (NULL != last->next) last = last->next`. -/
def findLast (s : St Fnc Arg) : Nat → Nat → Except Stop Nat
  | 0, _ => .error .fuel
  | fuel + 1, last => do
    let l ← deref s (some last)
    match l.next with
    | none => .ok last
    | some next => findLast s fuel next

/-- The job that `scheduler_create` allocates, with its stack. -/
def newJob (fnc : Fnc) (arg : Arg) (s : St Fnc Arg) : St Fnc Arg :=
  let job : Job Fnc Arg := { startAddr := s.mallocs, fnc, arg, env := none, status := 0, next := none }
  { s with jobs := Function.update s.jobs s.mallocs (some job),
           stackUsed := Function.update s.stackUsed s.mallocs true, mallocs := s.mallocs + 1 }

/-- `scheduler_create`, with what it returns. -/
def schedulerCreate (fnc : Fnc) (arg : Arg) (s : St Fnc Arg) : Except Stop (Int × St Fnc Arg) :=
  match s.schObj with
  | .null => .ok (-1, s)
  | .freed => .error .freed
  | .live sch => do
    let j := s.mallocs
    let s := newJob fnc arg s
    match sch.head with
    | none => .ok (0, { s with schObj := .live { sch with head := some j } })
    | some head => do
      let last ← findLast s s.mallocs head
      let s ← modify (some last) (fun l => { l with next := some j }) s
      .ok (0, s)

/-- The job after the one that ran, and the one before it in the queue: the new `curr`
    and `prev`. -/
def choose (s : St Fnc Arg) (sch : Scheduler) : Except Stop (Option Nat × Option Nat) :=
  match sch.curr with
  | none => .ok (sch.head, none)
  | some curr => do
    let c ← deref s (some curr)
    match c.next with
    | none => .ok (sch.head, none)
    | some next => .ok (some next, some curr)

/-- `curr` is given the processor: its function is called, or goes on where it yielded. -/
def enter (curr : Option Nat) (s : St Fnc Arg) : Except Stop (St Fnc Arg) := do
  let c ← deref s curr
  if c.status = 0 then do
    -- the stack pointer is set to the job's own stack
    let s ← modify curr (fun c => { c with status := 1 }) s
    if s.stackUsed c.startAddr then
      .ok { s with cpu := .job { stack := c.startAddr, fnc := c.fnc, arg := c.arg, slice := 0 } }
    else
      .error .freed
  else
    match c.env with
    | none => .error .jump
    | some ctx => if s.stackUsed ctx.stack then .ok { s with cpu := .job ctx } else .error .freed

/-- `scheduler_execute` from its `setjmp` until a job has the processor, or `main` again. -/
def dispatch (s : St Fnc Arg) : Except Stop (St Fnc Arg) := do
  let sch ← sch s
  let (curr, prev) ← choose s sch
  match curr with
  | none => .ok { s with schObj := .freed, cpu := .main }
  | some _ => enter curr { s with schObj := .live { sch with curr, prev } }

/-- `longjmp (sch_obj->env, 1)`. -/
def jump (s : St Fnc Arg) : Except Stop (St Fnc Arg) := do
  let sch ← sch s
  if sch.env then dispatch s else .error .jump

def schedulerExecute (s : St Fnc Arg) : Except Stop (St Fnc Arg) := do
  let sch ← sch s
  dispatch { s with schObj := .live { sch with env := true } }

/-- `scheduler_execute` after `fnc` has returned: the job is unlinked and freed. -/
def finish (s : St Fnc Arg) : Except Stop (St Fnc Arg) := do
  let sch ← sch s
  let (sch, s) ← match sch.prev with
    | none => do
      -- possibly the head is removed
      let h ← deref s sch.head
      .ok ({ sch with head := h.next }, s)
    | some prev => do
      let c ← deref s sch.curr
      let s ← modify (some prev) (fun p => { p with next := c.next }) s
      .ok (sch, s)
  let s ← freeJob sch.curr s
  jump { s with schObj := .live { sch with curr := sch.prev } }

/-- `scheduler_yield`, called at `ctx`. -/
def schedulerYield (ctx : Ctx Fnc Arg) (s : St Fnc Arg) : Except Stop (St Fnc Arg) := do
  let sch ← sch s
  let s ← modify sch.curr (fun c => { c with env := some { ctx with slice := ctx.slice + 1 } }) s
  jump s

/-! ## Runs -/

/-- What a job does in one slice: the jobs it creates, and whether its function returns at
    the end. -/
structure Slice (Fnc Arg : Type) where
  creates : List (Fnc × Arg)
  returns : Bool
  deriving DecidableEq, Repr

def createAll : List (Fnc × Arg) → St Fnc Arg → Except Stop (St Fnc Arg)
  | [], s => .ok s
  | (fnc, arg) :: cs, s => do
    let (_, s) ← schedulerCreate fnc arg s
    createAll cs s

/-- One slice of the code at `ctx`. -/
def runSlice (ctx : Ctx Fnc Arg) (slice : Slice Fnc Arg) (s : St Fnc Arg) : Except Stop (St Fnc Arg) := do
  let s ← createAll slice.creates s
  if slice.returns then finish s else schedulerYield ctx s

/-- A slice that was run: whose stack it ran on, and which slice of which code it was. -/
structure Event (Fnc Arg : Type) where
  job : Nat
  fnc : Fnc
  arg : Arg
  slice : Nat
  does : Slice Fnc Arg
  deriving DecidableEq, Repr

/-- The slices one after the other, as long as a job has the processor. -/
def run : List (Slice Fnc Arg) → St Fnc Arg → Except Stop (List (Event Fnc Arg) × St Fnc Arg)
  | [], s => .ok ([], s)
  | slice :: slices, s =>
    match s.cpu with
    | .main => .ok ([], s)
    | .job ctx => do
      let s ← runSlice ctx slice s
      let (es, s) ← run slices s
      .ok (⟨ctx.stack, ctx.fnc, ctx.arg, ctx.slice, slice⟩ :: es, s)

/-- `scheduler_init`, some `scheduler_create`, and `scheduler_execute`. -/
def session (jobs : List (Fnc × Arg)) (slices : List (Slice Fnc Arg)) :
    Except Stop (List (Event Fnc Arg) × St Fnc Arg) := do
  let s ← createAll jobs (schedulerInit start)
  let s ← schedulerExecute s
  run slices s

end Cs238p.Sched
