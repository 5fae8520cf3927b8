/-
  Cs238p.Logfs.Machine — `project-4/logfs.c` as two threads that run: the caller, with a
  program of calls to make, and the background writer, every access to what they share
  being a step.

  The steps are those of `Threads.lean`, with what they do to the slots, the device and the
  writer's copy, and with the answers that the caller goes on with. `logfs_append` and
  `logfs_read` leave what is shared to `write_to_queue`, `check_in_wcache` and `device_read`
  (`SharedCall`); all else they do is the caller's alone and takes no time. A failed
  assertion ends the process; so does a stop of the caller's program, as soon as the call
  before it has its answer.

  Proved: until the caller fills the slot of a block that is being written (`Clashes`), a
  step is none, or one access, or one tick of `Delayed.lean` (`MachineStep.remaining_eq`);
  so what a program answers there on every schedule, it answers in every interleaving
  (`Interleaves.ends`), and the threads never wait for each other (`MachineInv.goes_on`).
-/
import Cs238p.Logfs.Delayed
import Cs238p.Logfs.Progress

namespace Cs238p.Logfs

open Calls

/-! ## Programs of shared calls -/

/-- What the caller does with what it shares with the writer. -/
inductive SharedCall where
  | writeToQueue (b : Block)
  | checkInWcache (blk : Nat)
  | deviceRead (blk : Nat)

abbrev SharedCall.Answer : SharedCall → Type
  | .writeToQueue _ => Unit
  | .checkInWcache _ => Option (List UInt8)
  | .deviceRead _ => Option (List UInt8)

abbrev CallerProgram := Prog SharedCall SharedCall.Answer Stop

/-- `read_mem` looks through the slots, and then on the device. -/
def QueueCall.program : (q : QueueCall) → CallerProgram q.Answer
  | .put b => Prog.call (SharedCall.writeToQueue b)
  | .fetch blk => do
    match ← Prog.call (SharedCall.checkInWcache blk) with
    | some buf => return some buf
    | none => Prog.call (SharedCall.deviceRead blk)

/-- The shared calls on the log of `Delayed.lean`. -/
def serveShared : (q : SharedCall) → DelayedSt → Except Fault (q.Answer × DelayedSt)
  | .writeToQueue b, s => do
    let s ← backgroundTicks s
    let s ← waitForTicks s
    let s ← putBlock s b
    return ((), s)
  | .checkInWcache blk, s => (backgroundTicks s).map fun s => (checkInWcache s.log.wc blk, s)
  | .deviceRead blk, s => do
    let s ← backgroundTicks s
    readNow s blk

theorem program_run (q : QueueCall) (s : DelayedSt) : q.program.run serveShared .stop s = serveDelayed q s := by
  cases q with
  | put b =>
    change serveShared (.writeToQueue b) s >>= _ = serveShared (.writeToQueue b) s
    cases serveShared (.writeToQueue b) s with
    | error e => rfl
    | ok r => rfl
  | fetch blk =>
    change serveShared (.checkInWcache blk) s >>= _ = _
    simp only [serveShared, serveDelayed]
    cases backgroundTicks s with
    | error e => rfl
    | ok s =>
      simp only [Except.map, ok_bind, fetchNow]
      cases checkInWcache s.log.wc blk with
      | some buf => rfl
      | none =>
        change serveShared (.deviceRead blk) s >>= _ = _
        simp only [serveShared]
        cases backgroundTicks s with
        | error e => rfl
        | ok s =>
          simp only [ok_bind]
          cases readNow s blk with
          | error e => rfl
          | ok r => rfl

/-! ## The machine -/

structure MachineSt (α : Type) where
  threads : ThreadSt
  device : Device
  /-- Which of the next device reads fail. -/
  faults : List Bool
  /-- `wcache_unit` and the copied bytes, from the copying to the device write. -/
  pending : Option (Nat × List UInt8)
  /-- What the caller has yet to do; a call is done as soon as it has its answer. -/
  prog : CallerProgram α

/-- `logfs_open`, and a program for the caller. -/
def machineOpen {α : Type} (device : Device) (junk : Nat → List UInt8) (prog : CallerProgram α) : MachineSt α :=
  ⟨threadsOpen junk, device, [], none, prog⟩

/-- The caller is in a call, and its next step neither fills a slot nor looks through them. -/
def CallerPc.plain : CallerPc → Bool
  | .idle | .put _ | .look => false
  | _ => true

/-- The writer's next step neither copies a block nor writes one. -/
def WriterPc.plain : WriterPc → Bool
  | .take | .write => false
  | _ => true

def MachineSt.Running {α : Type} (m : MachineSt α) : Prop := ∀ e, m.prog ≠ .stop e

-- `blk_sz`
variable (B : Nat) {α : Type}

inductive CallerMove : MachineSt α → MachineSt α → Prop
  /-- `write_to_queue` is called. -/
  | queue {m : MachineSt α} {b : Block} {k : Unit → CallerProgram α} : m.prog = .ask (.writeToQueue b) k →
      m.threads.caller = .idle → CallerMove m { m with threads := { m.threads with caller := .lock b } }
  | fill {m : MachineSt α} {b : Block} {k : Unit → CallerProgram α} : m.prog = .ask (.writeToQueue b) k →
      m.threads.caller = .put b → CallerMove m { m with
        threads := { m.threads with wc := enqueue m.threads.wc b, caller := .signalItem }
        prog := k () }
  /-- `check_in_wcache` is called. -/
  | check {m : MachineSt α} {blk : Nat} {k : Option (List UInt8) → CallerProgram α} : m.prog = .ask (.checkInWcache blk) k →
      m.threads.caller = .idle → CallerMove m { m with threads := { m.threads with caller := .lockSlots } }
  | look {m : MachineSt α} {blk : Nat} {k : Option (List UInt8) → CallerProgram α} : m.prog = .ask (.checkInWcache blk) k →
      m.threads.caller = .look → CallerMove m { m with
        threads := { m.threads with caller := .unlock }
        prog := k (checkInWcache m.threads.wc blk) }
  /-- `device_read`. -/
  | read {m : MachineSt α} {blk : Nat} {k : Option (List UInt8) → CallerProgram α} {r : Option (List UInt8)} :
      m.prog = .ask (.deviceRead blk) k → m.threads.caller = .idle →
      deviceRead m.device (m.faults.headD false) blk B = .ok r →
      CallerMove m { m with faults := m.faults.tail, prog := k r }
  | readStops {m : MachineSt α} {blk : Nat} {k : Option (List UInt8) → CallerProgram α} {e : Stop} :
      m.prog = .ask (.deviceRead blk) k → m.threads.caller = .idle →
      deviceRead m.device (m.faults.headD false) blk B = .error e → CallerMove m { m with prog := .stop e }
  /-- `logfs_close` is called. -/
  | close {m : MachineSt α} {a : α} : m.prog = .ret a → m.threads.caller = .idle →
      CallerMove m { m with threads := { m.threads with caller := .setDone } }
  | inCall {m : MachineSt α} {t : ThreadSt} : m.Running → m.threads.caller.plain = true → CallerStep m.threads t →
      CallerMove m { m with threads := t }

inductive WriterMove : MachineSt α → MachineSt α → Prop
  /-- The critical section of `write_to_device`. -/
  | take {m : MachineSt α} {b : Block} {wc : Wcache} : m.Running → m.threads.writer = .take →
      takeBlock m.threads.wc = .ok (b, wc) → WriterMove m { m with
        threads := { m.threads with wc, writer := .signalSpace }
        pending := some (m.threads.wc.tail, b.buf) }
  | takeStops {m : MachineSt α} {e : Stop} : m.Running → m.threads.writer = .take → takeBlock m.threads.wc = .error e →
      WriterMove m { m with prog := .stop e }
  /-- `device_write`, at the number that the slot has by then. -/
  | write {m : MachineSt α} {i : Nat} {buf : List UInt8} {device : Device} : m.Running → m.threads.writer = .write →
      m.pending = some (i, buf) → deviceWrite m.device buf (m.threads.wc.slots i).blk B = .ok device →
      WriterMove m { m with threads := { m.threads with writer := .loop }, device, pending := none }
  | writeStops {m : MachineSt α} {i : Nat} {buf : List UInt8} {e : Stop} : m.Running → m.threads.writer = .write →
      m.pending = some (i, buf) → deviceWrite m.device buf (m.threads.wc.slots i).blk B = .error e →
      WriterMove m { m with prog := .stop e }
  | inWriter {m : MachineSt α} {t : ThreadSt} : m.Running → m.threads.writer.plain = true → WriterStep m.threads t →
      WriterMove m { m with threads := t }

inductive MachineStep : MachineSt α → MachineSt α → Prop
  | caller {m m' : MachineSt α} : CallerMove B m m' → MachineStep m m'
  | writer {m m' : MachineSt α} : WriterMove B m m' → MachineStep m m'
  /-- A thread wakes up for no reason. -/
  | spurious {m : MachineSt α} {t : ThreadSt} : m.Running → Spurious m.threads t → MachineStep m { m with threads := t }

/-- The step fills the slot of the block that is being written. -/
def Clashes (m m' : MachineSt α) : Prop :=
  (∃ b, m.threads.caller = .put b) ∧ m'.threads.caller = .signalItem ∧
    (m.pending.any fun p => p.1 == m.threads.wc.head) = true

/-- Runs without a clash. -/
abbrev Interleaves : MachineSt α → MachineSt α → Prop :=
  Relation.ReflTransGen fun m m' => MachineStep B m m' ∧ ¬ Clashes m m'

variable {B : Nat} {junk : Nat → List UInt8} {m m' : MachineSt α} {s s' : ThreadSt} {p : CallerProgram α}

/-! ## What the threads know -/

/-- The program asks for the call that the caller is in. -/
def Calling (p : CallerProgram α) : CallerPc → Prop
  | .lock b | .test b | .block b | .asleep b | .woken b | .put b => ∃ k, p = .ask (.writeToQueue b) k
  | .lockSlots | .look => ∃ blk k, p = .ask (.checkInWcache blk) k
  | .setDone | .closeItem | .closeSpace | .join | .joined => ∃ a, p = .ret a
  | .idle | .signalItem | .unlock => True

structure MachineInv (junk : Nat → List UInt8) (m : MachineSt α) : Prop where
  threads : ThreadInv junk m.threads
  copied : m.pending.isSome = m.threads.writer.copied
  calling : m.Running → Calling m.prog m.threads.caller

theorem CallerStep.calling (hs : CallerStep s s') (hp : s.caller.plain = true) (h : Calling p s.caller) : Calling p s'.caller := by
  cases hs <;> simp_all [CallerPc.plain, Calling]

theorem CallerStep.copied_eq (hs : CallerStep s s') : s'.writer.copied = s.writer.copied := by
  cases hs with
  | signalItem _ | closeItem _ => exact copied_signalItem _
  | _ => rfl

theorem CallerStep.wc_eq (hs : CallerStep s s') (hp : s.caller.plain = true) : s'.wc = s.wc := by
  cases hs with
  | put hc =>
    rw [hc] at hp
    cases hp
  | _ => rfl

theorem calling_signalSpace {c : CallerPc} (h : Calling p c) : Calling p (signalSpace c) := by
  cases c <;> exact h

theorem WriterStep.calling (hs : WriterStep s s') (h : Calling p s.caller) : Calling p s'.caller := by
  cases hs with
  | signalSpace _ => exact calling_signalSpace h
  | _ => exact h

theorem WriterStep.plain_eq (hs : WriterStep s s') (hp : s.writer.plain = true) :
    s'.wc = s.wc ∧ s'.writer.copied = s.writer.copied := by
  cases hs <;> simp_all [WriterPc.plain, WriterPc.copied]

theorem Spurious.kept (hs : Spurious s s') : s'.wc = s.wc ∧ s'.writer.copied = s.writer.copied := by
  cases hs with
  | caller _ => exact ⟨rfl, rfl⟩
  | writer hw => exact ⟨rfl, by rw [hw]; rfl⟩

theorem Spurious.calling (hs : Spurious s s') (h : Calling p s.caller) : Calling p s'.caller := by
  cases hs with
  | caller hc =>
    rw [hc] at h
    exact h
  | writer _ => exact h

theorem MachineInv.caller_step (h : MachineInv junk m) (hs : CallerMove B m m') : MachineInv junk m' := by
  obtain ⟨ht, hcopied, hcalling⟩ := h
  cases hs with
  | @queue b k hp hc => exact ⟨ht.caller_step (.call b hc), hcopied, fun _ => ⟨k, hp⟩⟩
  | fill hp hc => exact ⟨ht.caller_step (.put hc), hcopied, fun _ => trivial⟩
  | @check blk k hp hc => exact ⟨ht.caller_step (.check hc), hcopied, fun _ => ⟨blk, k, hp⟩⟩
  | look hp hc => exact ⟨ht.caller_step (.look hc), hcopied, fun _ => trivial⟩
  | read hp hc hr => exact ⟨ht, hcopied, fun _ => by simp only [hc]; trivial⟩
  | readStops => exact ⟨ht, hcopied, fun hrun => absurd rfl (hrun _)⟩
  | @close a hp hc => exact ⟨ht.caller_step (.close hc), hcopied, fun _ => ⟨a, hp⟩⟩
  | inCall hrun hplain hs =>
    exact ⟨ht.caller_step hs, hcopied.trans hs.copied_eq.symm, fun _ => hs.calling hplain (hcalling hrun)⟩

theorem MachineInv.writer_step (h : MachineInv junk m) (hs : WriterMove B m m') : MachineInv junk m' := by
  obtain ⟨ht, hcopied, hcalling⟩ := h
  cases hs with
  | take hrun hw htake => exact ⟨ht.writer_step (.take hw htake), rfl, fun _ => hcalling hrun⟩
  | write hrun hw hp hd => exact ⟨ht.writer_step (.write hw), rfl, fun _ => hcalling hrun⟩
  | takeStops | writeStops => exact ⟨ht, hcopied, fun hrun => absurd rfl (hrun _)⟩
  | inWriter hrun hplain hs =>
    exact ⟨ht.writer_step hs, hcopied.trans (hs.plain_eq hplain).2.symm, fun _ => hs.calling (hcalling hrun)⟩

theorem MachineInv.step (h : MachineInv junk m) (hs : MachineStep B m m') : MachineInv junk m' := by
  cases hs with
  | caller hs => exact h.caller_step hs
  | writer hs => exact h.writer_step hs
  | spurious hrun hs =>
    exact ⟨h.threads.spurious hs, h.copied.trans hs.kept.2.symm, fun _ => hs.calling (h.calling hrun)⟩

theorem machineInv_open (device : Device) (junk : Nat → List UInt8) (p : CallerProgram α) :
    MachineInv junk (machineOpen device junk p) := ⟨threadInv_open junk, rfl, fun _ => trivial⟩

theorem Interleaves.inv (hs : Interleaves B m m') (h : MachineInv junk m) : MachineInv junk m' := by
  induction hs with
  | refl => exact h
  | tail _ hs ih => exact ih.step hs.1

/-! ## Steps are ticks and accesses -/

/-- The log of `Delayed.lean`, `base` having what no step touches. -/
def MachineSt.delayed (base : LogfsSt) (m : MachineSt α) (sched : List Nat) : DelayedSt :=
  ⟨{ base with wc := m.threads.wc, device := m.device, faults := m.faults, sched }, m.pending⟩

/-- What is left of a program there, and ticks after it. -/
def finish (p : CallerProgram α) (s : DelayedSt) : Except Fault (α × DelayedSt) :=
  p.run serveShared .stop s >>= fun r => (backgroundTicks r.2).map fun s => (r.1, s)

def MachineSt.remaining (base : LogfsSt) (m : MachineSt α) (sched : List Nat) : Except Fault (α × DelayedSt) :=
  finish m.prog (m.delayed base sched)

/-- One tick more before the first access. -/
def sooner : List Nat → List Nat
  | [] => [1]
  | n :: sched => (n + 1) :: sched

variable {base log : LogfsSt} {pending : Option (Nat × List UInt8)}

theorem finish_ret (a : α) (s : DelayedSt) : finish (.ret a) s = (backgroundTicks s).map fun s => (a, s) := rfl

/-- A program that goes on ticks first. -/
theorem exists_finish (p : CallerProgram α) (hp : ∀ e, p ≠ .stop e) :
    ∃ rest : DelayedSt → Except Fault (α × DelayedSt), ∀ s, finish p s = backgroundTicks s >>= rest := by
  cases p with
  | ret a =>
    refine ⟨fun s => .ok (a, s), fun s => ?_⟩
    rw [finish_ret]
    cases backgroundTicks s with
    | error e => rfl
    | ok s => rfl
  | stop e => exact absurd rfl (hp e)
  | ask q k =>
    have hserve : ∃ rest, ∀ s, serveShared q s = backgroundTicks s >>= rest := by
      cases q with
      | writeToQueue b => exact ⟨_, fun _ => rfl⟩
      | checkInWcache blk =>
        refine ⟨fun s => .ok (checkInWcache s.log.wc blk, s), fun s => ?_⟩
        rw [serveShared]
        cases backgroundTicks s with
        | error e => rfl
        | ok s => rfl
      | deviceRead blk => exact ⟨_, fun _ => rfl⟩
    obtain ⟨rest, hrest⟩ := hserve
    refine ⟨fun s => rest s >>= fun r => finish (k r.1) r.2, fun s => ?_⟩
    rw [finish, Prog.run_ask, hrest]
    cases backgroundTicks s with
    | error e => rfl
    | ok s =>
      simp only [ok_bind]
      cases rest s with
      | error e => rfl
      | ok r => rfl

theorem tick_sched (sched : List Nat) :
    tick ⟨{ log with sched }, pending⟩ = (tick ⟨log, pending⟩).map fun s => ⟨{ s.log with sched }, s.pending⟩ := by
  unfold tick
  cases pending with
  | some p =>
    simp only
    generalize deviceWrite log.device _ _ _ = w
    cases w with
    | error e => rfl
    | ok d => rfl
  | none =>
    simp only
    split
    · rfl
    · rfl

theorem backgroundTicks_sooner (sched : List Nat) :
    backgroundTicks ⟨{ log with sched := sooner sched }, pending⟩ = tick ⟨{ log with sched }, pending⟩ >>= backgroundTicks := by
  rw [tick_sched sched]
  cases sched with
  | nil =>
    change tickN 1 ⟨{ log with sched := [] }, pending⟩ = _
    rw [tickN, tick_sched []]
    cases tick ⟨log, pending⟩ with
    | error e => rfl
    | ok s => rfl
  | cons n sched =>
    change tickN (n + 1) ⟨{ log with sched }, pending⟩ = _
    rw [tickN, tick_sched sched]
    cases tick ⟨log, pending⟩ with
    | error e => rfl
    | ok s => rfl

theorem remaining_tick {t : ThreadSt} {d : Device} (hrun : m.Running)
    (ht : ∀ sched, tick (m.delayed base sched) = .ok (MachineSt.delayed base ⟨t, d, m.faults, pending, m.prog⟩ sched))
    (sched : List Nat) :
    m.remaining base (sooner sched) = MachineSt.remaining base ⟨t, d, m.faults, pending, m.prog⟩ sched := by
  obtain ⟨rest, hrest⟩ := exists_finish m.prog hrun
  have hback : backgroundTicks (m.delayed base (sooner sched)) = tick (m.delayed base sched) >>= backgroundTicks :=
    @backgroundTicks_sooner (m.delayed base sched).log m.pending sched
  rw [MachineSt.remaining, MachineSt.remaining, hrest, hrest, hback, ht, ok_bind]

theorem remaining_stops {e : Fault} (hrun : m.Running) (ht : tick (m.delayed base []) = .error e) :
    m.remaining base (sooner []) = .error e := by
  obtain ⟨rest, hrest⟩ := exists_finish m.prog hrun
  have hback : backgroundTicks (m.delayed base (sooner [])) = tick (m.delayed base []) >>= backgroundTicks :=
    @backgroundTicks_sooner (m.delayed base []).log m.pending []
  rw [MachineSt.remaining, hrest, hback, ht, error_bind, error_bind]

/-- A step that no access is in. -/
theorem remaining_kept {t : ThreadSt} (hwc : t.wc = m.threads.wc) (sched : List Nat) :
    m.remaining base sched = MachineSt.remaining base { m with threads := t } sched := by
  rw [MachineSt.remaining, MachineSt.remaining, MachineSt.delayed, MachineSt.delayed, hwc]

/-- An access is the next one of the program, the writer being through with its ticks. -/
theorem remaining_access {q : SharedCall} {k : q.Answer → CallerProgram α} {x : q.Answer} (hp : m.prog = .ask q k)
    (hprog : m'.prog = k x) {sched : List Nat}
    (hserve : serveShared q (m.delayed base (0 :: sched)) = .ok (x, m'.delayed base sched)) :
    m.remaining base (0 :: sched) = m'.remaining base sched := by
  rw [MachineSt.remaining, hp, finish, Prog.run_ask, hserve, ok_bind, MachineSt.remaining, hprog]
  rfl

theorem MachineInv.pending_none (h : MachineInv junk m) (hw : m.threads.writer = .take) : m.pending = none := by
  have hcopied := h.copied
  rw [hw] at hcopied
  exact Option.not_isSome_iff_eq_none.mp (by rw [hcopied]; decide)

theorem MachineInv.active_ne (h : MachineInv junk m) (hw : m.threads.writer = .take) : m.threads.wc.activeBlks ≠ 0 := by
  have hok := h.threads.writer
  rw [hw] at hok
  exact hok

theorem CallerMove.remaining_eq (hs : CallerMove B m m') (hi : MachineInv junk m) (hB : base.blkSz = B)
    (hno : ¬ Clashes m m') (sched : List Nat) : ∃ sched', m.remaining base sched' = m'.remaining base sched := by
  cases hs with
  | queue _ _ | check _ _ | close _ _ => exact ⟨sched, remaining_kept rfl sched⟩
  | inCall _ hplain hs => exact ⟨sched, remaining_kept (hs.wc_eq hplain) sched⟩
  | @fill b k hp hc =>
    have hroom : m.threads.wc.activeBlks < 32 := by
      have hok := hi.threads.caller
      rw [hc] at hok
      exact hok
    have hfree : ¬ (m.pending.any fun p => p.1 == m.threads.wc.head) = true := fun hclash => hno ⟨⟨b, hc⟩, rfl, hclash⟩
    have hwait : waitForTicks (m.delayed base sched) = .ok (m.delayed base sched) := if_neg (Nat.not_le.mpr hroom)
    have hput : putBlock (m.delayed base sched) b = .ok _ := if_neg hfree
    refine ⟨0 :: sched, ?_⟩
    refine remaining_access hp rfl ?_
    change waitForTicks (m.delayed base sched) >>= _ = _
    rw [hwait, ok_bind, hput]
    rfl
  | look hp hc =>
    refine ⟨0 :: sched, ?_⟩
    exact remaining_access hp rfl rfl
  | @read blk k r hp hc hr =>
    refine ⟨0 :: sched, ?_⟩
    refine remaining_access hp rfl ?_
    change readNow (m.delayed base sched) blk = _
    rw [← hB] at hr
    simp only [readNow, MachineSt.delayed, hr]
  | @readStops blk k e hp hc hr =>
    refine ⟨[], ?_⟩
    have hstop : readNow (m.delayed base []) blk = .error (.stop e) := by
      rw [← hB] at hr
      simp only [readNow, MachineSt.delayed, hr]
    rw [MachineSt.remaining, hp, finish, Prog.run_ask]
    change (readNow (m.delayed base []) blk >>= _) >>= _ = _
    rw [hstop]
    rfl

theorem WriterMove.remaining_eq (hs : WriterMove B m m') (hi : MachineInv junk m) (hB : base.blkSz = B) (sched : List Nat) :
    ∃ sched', m.remaining base sched' = m'.remaining base sched := by
  cases hs with
  | @take b wc hrun hw htake =>
    have hnone := hi.pending_none hw
    have h0 := hi.active_ne hw
    rw [takeBlock_ok h0] at htake
    cases htake
    refine ⟨sooner sched, ?_⟩
    refine remaining_tick hrun (fun sched => ?_) sched
    simp only [tick, MachineSt.delayed, hnone, if_neg h0]
    rfl
  | takeStops hrun hw htake =>
    rw [takeBlock_ok (hi.active_ne hw)] at htake
    cases htake
  | write hrun hw hp hd =>
    rw [← hB] at hd
    refine ⟨sooner sched, ?_⟩
    refine remaining_tick hrun (fun sched => ?_) sched
    simp only [tick, MachineSt.delayed, hp, hd]
  | writeStops hrun hw hp hd =>
    rw [← hB] at hd
    refine ⟨sooner [], (remaining_stops hrun ?_).trans rfl⟩
    simp only [tick, MachineSt.delayed, hp, hd]
  | inWriter _ hplain hs => exact ⟨sched, remaining_kept (hs.plain_eq hplain).1 sched⟩

/-- A step without a clash is none of `Delayed.lean`, or the next access, or a tick. -/
theorem MachineStep.remaining_eq (hs : MachineStep B m m') (hi : MachineInv junk m) (hB : base.blkSz = B)
    (hno : ¬ Clashes m m') (sched : List Nat) : ∃ sched', m.remaining base sched' = m'.remaining base sched := by
  cases hs with
  | caller hs => exact hs.remaining_eq hi hB hno sched
  | writer hs => exact hs.remaining_eq hi hB sched
  | spurious _ hs => exact ⟨sched, remaining_kept hs.kept.1 sched⟩

/-! ## The threads do not wait for each other -/

theorem ThreadInv.goes_on (h : ThreadInv junk s) (hd : s.done = false) : ∃ s', CallerStep s s' ∨ WriterStep s s' := by
  by_cases hm : s.mutex = none
  · by_cases hw : s.writer = .asleep
    · -- a full ring is not empty
      have awake : ∀ b, s.caller ≠ .asleep b := by
        intro b hc
        have hfull := h.caller
        have hempty := h.writer
        rw [hc, CallerOk, hw] at hfull
        rw [hw, WriterOk, hc] at hempty
        have h32 : s.wc.activeBlks = 32 := hfull.resolve_right (by simp)
        have h0 : s.wc.activeBlks = 0 := hempty.resolve_right (by simp)
        omega
      obtain ⟨s', hs⟩ := h.caller_steps hm hd awake
      exact ⟨s', Or.inl hs⟩
    · obtain ⟨s', hs⟩ := h.writer_steps hm hd hw
      exact ⟨s', Or.inr hs⟩
  · exact h.holder_steps hm

theorem WriterStep.moves {t : ThreadSt} (hs : WriterStep m.threads t) (hi : MachineInv junk m) (hrun : m.Running) (B : Nat) :
    ∃ m', WriterMove B m m' := by
  cases hpc : m.threads.writer with
  | take => exact ⟨_, .take hrun hpc (takeBlock_ok (hi.active_ne hpc))⟩
  | write =>
    have hcopied := hi.copied
    rw [hpc] at hcopied
    obtain ⟨⟨i, buf⟩, hp⟩ := Option.isSome_iff_exists.mp hcopied
    cases hd : deviceWrite m.device buf (m.threads.wc.slots i).blk B with
    | error e => exact ⟨_, .writeStops hrun hpc hp hd⟩
    | ok d => exact ⟨_, .write hrun hpc hp hd⟩
  | _ => exact ⟨_, .inWriter hrun (by rw [hpc]; rfl) hs⟩

/-- Between two calls the program has the next one. -/
theorem idle_moves (hrun : m.Running) (hc : m.threads.caller = .idle) (B : Nat) : ∃ m', CallerMove B m m' := by
  cases hp : m.prog with
  | ret a => exact ⟨_, .close hp hc⟩
  | stop e => exact absurd hp (hrun e)
  | ask q k =>
    cases q with
    | writeToQueue b => exact ⟨_, .queue hp hc⟩
    | checkInWcache blk => exact ⟨_, .check hp hc⟩
    | deviceRead blk =>
      cases hr : deviceRead m.device (m.faults.headD false) blk B with
      | error e => exact ⟨_, .readStops hp hc hr⟩
      | ok r => exact ⟨_, .read hp hc hr⟩

theorem CallerStep.moves {t : ThreadSt} (hs : CallerStep m.threads t) (hi : MachineInv junk m) (hrun : m.Running) (B : Nat) :
    ∃ m', CallerMove B m m' := by
  have hcalling := hi.calling hrun
  cases hpc : m.threads.caller with
  | idle => exact idle_moves hrun hpc B
  | put b =>
    rw [hpc] at hcalling
    obtain ⟨k, hp⟩ := hcalling
    exact ⟨_, .fill hp hpc⟩
  | look =>
    rw [hpc] at hcalling
    obtain ⟨blk, k, hp⟩ := hcalling
    exact ⟨_, .look hp hpc⟩
  | _ => exact ⟨_, .inCall hrun (by rw [hpc]; rfl) hs⟩

/-- Until the program ends one of the threads can go on, without waking up for no reason. -/
theorem MachineInv.goes_on (h : MachineInv junk m) (B : Nat) :
    (∃ a, m.prog = .ret a) ∨ (∃ e, m.prog = .stop e) ∨ ∃ m', CallerMove B m m' ∨ WriterMove B m m' := by
  cases hp : m.prog with
  | ret a => exact Or.inl ⟨a, rfl⟩
  | stop e => exact Or.inr (Or.inl ⟨e, rfl⟩)
  | ask q k =>
    have hrun : m.Running := fun e he => by
      rw [hp] at he
      cases he
    have hopen : m.threads.done = false := by
      rw [h.threads.done_eq]
      have hcalling := h.calling hrun
      cases hpc : m.threads.caller with
      | closeItem | closeSpace | join | joined =>
        rw [hpc, hp] at hcalling
        obtain ⟨a, ha⟩ := hcalling
        cases ha
      | _ => rfl
    obtain ⟨t, hs | hs⟩ := h.threads.goes_on hopen
    · obtain ⟨m', hm⟩ := hs.moves h hrun B
      exact Or.inr (Or.inr ⟨m', Or.inl hm⟩)
    · obtain ⟨m', hm⟩ := hs.moves h hrun B
      exact Or.inr (Or.inr ⟨m', Or.inr hm⟩)

/-! ## Runs -/

/-- What a program answers on every schedule of `Delayed.lean`, it answers in every
    interleaving without a clash, and it stops for the same reasons. -/
theorem Interleaves.ends {E : Fault → Prop} {post : α → DelayedSt → Prop} (hs : Interleaves B m m') (hi : MachineInv junk m)
    (hB : base.blkSz = B) (h : ∀ sched, Outcome E (m.remaining base sched) fun r => post r.1 r.2) :
    (∀ e, m'.prog = .stop e → E (.stop e)) ∧ ∀ a, m'.prog = .ret a → post a (m'.delayed base []) := by
  have hall : ∀ sched, Outcome E (m'.remaining base sched) fun r => post r.1 r.2 := by
    induction hs with
    | refl => exact h
    | tail hrun hs ih =>
      intro sched
      obtain ⟨sched', he⟩ := hs.1.remaining_eq (Interleaves.inv hrun hi) hB hs.2 sched
      rw [← he]
      exact ih sched'
  have hend := hall []
  constructor
  · intro e he
    rw [MachineSt.remaining, he] at hend
    cases hend with
    | error hE => exact hE
  · intro a ha
    rw [MachineSt.remaining, ha] at hend
    cases hend with
    | ok hpost => exact hpost

end Cs238p.Logfs
