/-
  Cs238p.Kvdb.Interleaved — kvdb on the two threads of its log.

  A session is one program of the calling thread: `kvdb_open` and then calls, of which each
  is the accesses to the log that it makes (`StoreFront.call`), and each of these the
  accesses to the queue and the device (`LogAccess.program`).

  Proved: in every interleaving of the caller and the background writer without a clash a
  session answers what the map answers, or the index gives up, and until it ends one of the
  threads can go on (`interleaved_session_is_map`); in every fair run it ends
  (`fair_session_ends`).
-/
import Cs238p.Logfs.Completion
import Cs238p.Kvdb.Delayed

namespace Cs238p.Kvdb

open Calls
open Cs238p.Logfs (Stop Device LogfsSt Front Caller LogfsCall QueueCall MachineSt CallerMove WriterMove Interleaves FairMachine Clashes Idle
  PutFits DrainKeeps logfsOpen machineOpen serveQueue serveLogfs logfsCall_run logfsCall_within serveQueue_blkSz machineInv_open
  drainKeeps_idle closes exists_fairMachine)

/-! ## Sessions as programs -/

/-- What an access to the log does with the queue and the device. -/
def LogAccess.program (B : Nat) : (q : LogAccess) → Front → Caller (q.Answer × Front)
  | .append buf, f => do
    let r ← (LogfsCall.append buf).program B f
    return (true, r.2)
  | .read off len, f => (LogfsCall.read off len).program B f

def StoreFront.calls (hash : List UInt8 → UInt64) (f : StoreFront) : List Op → Keeper (List Answer)
  | [] => return []
  | op :: ops => do
    let (a, f) ← f.call hash op
    let as ← StoreFront.calls hash f ops
    return a :: as

/-- A store is opened and called; `none` is a `NULL` of `kvdb_open`. -/
def sessionProgram (hash : List UInt8 → UInt64) (ops : List Op) : Keeper (Option (List Answer)) := do
  if ← Keeper.kvrawAppend [0] [0] 0 then
    let as ← StoreFront.calls hash ⟨0, 0, 18, indexOpen⟩ ops
    return some as
  else return none

/-- A freshly opened log with a session. -/
def sessionOpen (hash : List UInt8 → UInt64) (device : Device) (junk : Nat → List UInt8) (ops : List Op) :
    MachineSt (Option (List Answer) × Front) :=
  machineOpen device junk
    (((sessionProgram hash ops).via (LogAccess.program device.block) (logfsOpen device junk [] []).front).expand QueueCall.program)

variable {α : Type} {B N : Nat} {hash : List UInt8 → UInt64} {recs : List Rec} {f : StoreFront} {l : LogSide}

theorem logAccess_run (q : LogAccess) (f : Front) (s : LogfsSt) (hs : s.blkSz = B) :
    serveLog q ⟨s.putFront f, []⟩ = ((q.program B f).run serveQueue id s).map fun r => (r.1.1, ⟨r.2.putFront r.1.2, []⟩) := by
  cases q with
  | append buf =>
    have hrun := logfsCall_run (.append buf) f s hs
    simp only [serveLog, LogSide.kvraw, appendLog, List.headD_nil, Bool.false_eq_true, if_false]
    change _ = Except.map _ ((((LogfsCall.append buf).program B f).bind _).run serveQueue id s)
    rw [Prog.run_bind]
    change (Logfs.logfsAppend (s.putFront f) buf).map (fun s => ((), s)) = _ at hrun
    generalize ((LogfsCall.append buf).program B f).run serveQueue id s = x at hrun ⊢
    generalize Logfs.logfsAppend (s.putFront f) buf = y at hrun ⊢
    cases x with
    | error e =>
      cases y with
      | error e' =>
        cases hrun
        rfl
      | ok t => cases hrun
    | ok r =>
      cases y with
      | error e' => cases hrun
      | ok t =>
        cases hrun
        rfl
  | read off len =>
    have hrun := logfsCall_run (.read off len) f s hs
    simp only [serveLog, LogSide.kvraw, readLog, LogAccess.program]
    change Logfs.logfsRead (s.putFront f) off len = _ at hrun
    rw [hrun]
    cases ((LogfsCall.read off len).program B f).run serveQueue id s with
    | error e => rfl
    | ok r => rfl

theorem keeper_run (p : Keeper α) (f : Front) {s : LogfsSt} (hs : s.blkSz = B) :
    p.run serveLog id ⟨s.putFront f, []⟩ =
      ((p.via (LogAccess.program B) f).run serveQueue id s).map fun r => (r.1.1, ⟨r.2.putFront r.1.2, []⟩) :=
  Prog.run_via logAccess_run serveQueue_blkSz p hs

theorem logAccess_within (q : LogAccess) (f : Front) (h : f.Sized B) : (q.program B f).Within (PutFits B) fun r => r.2.Sized B := by
  cases q with
  | append buf => exact (logfsCall_within (.append buf) f h).bind fun _ hr => .ret hr
  | read off len => exact logfsCall_within (.read off len) f h

/-! ## What a session ends with -/

/-- The log of a store. -/
def Logs (N : Nat) (l : LogSide) : Prop := ∃ log, Idle l.logfs log ∧ l.logfs.device.size = N

theorem Inv.logs (h : Inv hash N (f.withLog l) recs) : Logs N l := ⟨_, h.raw.log, h.raw.device⟩

theorem calls_outcome : ∀ (ops : List Op) {f : StoreFront} {l : LogSide} {recs : List Rec}, Inv hash N (f.withLog l) recs →
    (∀ op ∈ ops, op.Valid ∧ ¬ op.LengthQuery) → Fits N (image (opening :: recs)).length (bindings recs) ops →
    Outcome (fun e => e = .exitIndex) ((StoreFront.calls hash f ops).run serveLog id l) fun r =>
      r.1 = answers (bindings recs) ops ∧ Logs N r.2 := by
  intro ops
  induction ops with
  | nil => exact fun h _ _ => .ok ⟨rfl, h.logs⟩
  | cons op ops ih =>
    intro f l recs h hv hf
    obtain ⟨hvalid, hquery⟩ := hv op List.mem_cons_self
    rw [StoreFront.calls, Prog.bind_eq, Prog.run_bind]
    refine (StoreFront.call_outcome h hvalid hquery hf.1).bind fun r hr => ?_
    obtain ⟨⟨a, f'⟩, l'⟩ := r
    obtain ⟨rfl, recs', h', hm, hu⟩ := hr
    have hfits : Fits N (image (opening :: recs')).length (bindings recs') ops := by
      rw [hm, hu]
      exact hf.2
    simp only [Prog.bind_eq, Prog.run_bind]
    refine (ih h' (fun op hop => hv op (List.mem_cons_of_mem _ hop)) hfits).bind fun r hr => ?_
    refine .ok ⟨?_, hr.2⟩
    rw [answers, hr.1, hm]

theorem session_outcome (hash : List UInt8 → UInt64) (d : Device) (junk : Nat → List UInt8) (sched : List Nat) (ops : List Op)
    (hv : ∀ op ∈ ops, op.Valid ∧ ¬ op.LengthQuery) (hf : Fits d.size 18 (fun _ => none) ops) :
    Outcome (fun e => e = .exitIndex) ((sessionProgram hash ops).run serveLog id ⟨logfsOpen d junk sched [], []⟩) fun r =>
      r.1 = some (answers (fun _ => none) ops) ∧ Logs d.size r.2 := by
  rw [sessionProgram, Prog.bind_eq, Prog.run_bind]
  refine ((open_outcome hash d junk sched hf.le).weaken fun _ he => he.elim).bind fun r hr => ?_
  obtain ⟨ok, l⟩ := r
  obtain ⟨rfl, hi⟩ := hr
  simp only [if_true, Prog.bind_eq, Prog.run_bind]
  refine (calls_outcome ops hi hv hf).bind fun r hr => ?_
  exact .ok ⟨congrArg some hr.1, hr.2⟩

section

variable (hash : List UInt8 → UInt64) (d : Device) (junk : Nat → List UInt8) (ops : List Op)
  {m : MachineSt (Option (List Answer) × Front)}

/-- A session does in every interleaving what it does on the map. -/
theorem session_interleaved (hjunk : ∀ i, (junk i).length = d.block) (hv : ∀ op ∈ ops, op.Valid ∧ ¬ op.LengthQuery)
    (hf : Fits d.size 18 (fun _ => none) ops) (hs : Interleaves d.block (sessionOpen hash d junk ops) m) :
    (∀ e, m.prog = .stop e → e = .exitIndex) ∧ ∀ r, m.prog = .ret r → r.1 = some (answers (fun _ => none) ops) := by
  let P : Option (List Answer) × Front → LogfsSt → Prop := fun r u =>
    r.1 = some (answers (fun _ => none) ops) ∧ ∃ log, Idle (u.putFront r.2) log ∧ u.device.size = d.size
  have hsized : (logfsOpen d junk [] []).front.Sized d.block := ⟨List.length_replicate, Nat.zero_add _⟩
  have hwithin := Prog.Within.via logAccess_within (sessionProgram hash ops) hsized
  have hy : ∀ script, Outcome (fun e => e = .exitIndex)
      (((sessionProgram hash ops).via (LogAccess.program d.block) (logfsOpen d junk [] []).front).run serveQueue id
        (logfsOpen d junk script [])) fun r => P r.1 r.2 := by
    intro script
    have hout := session_outcome hash d junk script ops hv hf
    have hrun := keeper_run (sessionProgram hash ops) (logfsOpen d junk [] []).front
      (show (logfsOpen d junk script []).blkSz = d.block from rfl)
    change (sessionProgram hash ops).run serveLog id ⟨logfsOpen d junk script [], []⟩ = _ at hrun
    rw [hrun] at hout
    refine hout.of_map.mono fun r hr => ?_
    obtain ⟨hans, log, hi, hN⟩ := hr
    exact ⟨hans, log, hi, hN⟩
  have hkeeps : DrainKeeps P := by
    intro r u n h
    obtain ⟨hans, log, hi⟩ := h
    obtain ⟨u', hu, hans', hi'⟩ := drainKeeps_idle _ log d.size r u n ⟨hans, hi⟩
    exact ⟨u', hu, hans', log, hi'⟩
  have hno : ∀ e : Stop, e = .exitIndex → ¬ e = .assert := fun e he ha => by
    rw [he] at ha
    cases ha
  obtain ⟨hstop, hret⟩ := Interleaves.settled hwithin hjunk hy hno hkeeps hs
  refine ⟨hstop, fun r hr => ?_⟩
  obtain ⟨t, -, hP⟩ := hret r hr
  exact (hP []).1

end

/-- A key that is not there is looked up and inserted. -/
def absentKey : List Op := [.lookup [107] none none, .insert [107] [9]]

/-- The caller alone. -/
theorem absentKey_runs : ∃ m, Interleaves 16 (sessionOpen (fun _ => 7) device128 (fun _ => List.replicate 16 0) absentKey) m ∧
    (∃ r, m.prog = .ret r) ∧ m.pending = none ∧ m.threads.caller = .unlock ∧ m.threads.writer = .loop := by
  have h0 : Interleaves 16 (sessionOpen (fun _ => 7) device128 (fun _ => List.replicate 16 0) absentKey) _ := .refl
  have h1 := Logfs.Interleaves.caller h0 (.queue rfl rfl) rfl
  have h2 := Logfs.Interleaves.caller h1 (.inCall (by intro e he; cases he) rfl (.lock rfl rfl)) rfl
  have h3 := Logfs.Interleaves.caller h2 (.inCall (by intro e he; cases he) rfl (.room rfl (show ¬ 0 ≥ 32 by decide))) rfl
  have h4 := Logfs.Interleaves.caller h3 (.fill rfl rfl) rfl
  have h5 := Logfs.Interleaves.caller h4 (.inCall (by intro e he; cases he) rfl (.signalItem rfl)) rfl
  have h6 := Logfs.Interleaves.caller h5 (.inCall (by intro e he; cases he) rfl (.unlock rfl)) rfl
  have h7 := Logfs.Interleaves.caller h6 (.queue rfl rfl) rfl
  have h8 := Logfs.Interleaves.caller h7 (.inCall (by intro e he; cases he) rfl (.lock rfl rfl)) rfl
  have h9 := Logfs.Interleaves.caller h8 (.inCall (by intro e he; cases he) rfl (.room rfl (show ¬ 1 ≥ 32 by decide))) rfl
  have h10 := Logfs.Interleaves.caller h9 (.fill rfl rfl) rfl
  have h11 := Logfs.Interleaves.caller h10 (.inCall (by intro e he; cases he) rfl (.signalItem rfl)) rfl
  exact ⟨_, h11, ⟨_, rfl⟩, rfl, rfl, rfl⟩

theorem absentKey_valid : ∀ op ∈ absentKey, op.Valid ∧ ¬ op.LengthQuery := by
  simp [absentKey, Op.Valid, KeyOk, ValOk, BufOk, Op.LengthQuery]

theorem absentKey_fits : Fits device128.size 18 (fun _ => none) absentKey := by
  simp [absentKey, Fits, written, rebind, device128]

end Cs238p.Kvdb
