/-
  Cs238p.Kvdb.Delayed — kvdb on the log whose writer may stop between its two halves.

  Each call of the store is a program on the log (`StoreFront.call`), and the log whose
  writer is behind matches the one of `Log.lean` call by call.

  Proved: whatever the ticks of the writer, a session answers what the map answers, until
  the caller fills the slot of a block that is being written or the index gives up
  (`delayed_session_is_map`).
-/
import Cs238p.Logfs.DelayedRuns
import Cs238p.Kvdb.Calls
import Cs238p.Kvdb.Sessions

namespace Cs238p.Kvdb

open Calls
open Cs238p.Logfs (Stop Fault Device LogfsSt DelayedSt Kept Keeps Settled settle delayedAppend delayedRead delayedOpen logfsOpen
  logfsAppend logfsRead append_keeps read_keeps idle_sched)

structure DelayedKvdb where
  front : StoreFront
  log : DelayedSt

def serveDelayedLog : (q : LogAccess) → DelayedSt → Except Fault (q.Answer × DelayedSt)
  | .append buf, s => (delayedAppend s buf).map fun s => (true, s)
  | .read off len, s => delayedRead s off len

/-- `kvdb_open`; `none` is `NULL`. -/
def delayedKvdbOpen (device : Device) (junk : Nat → List UInt8) (sched : List Nat) : Except Fault (Option DelayedKvdb) :=
  ((Keeper.kvrawAppend [0] [0] 0).run serveDelayedLog .stop (delayedOpen device junk sched)).map fun r =>
    if r.1 then some ⟨⟨0, 0, 18, indexOpen⟩, r.2⟩ else none

section

variable (hash : List UInt8 → UInt64)

def delayedCall (s : DelayedKvdb) (op : Op) : Except Fault (Answer × DelayedKvdb) :=
  ((s.front.call hash op).run serveDelayedLog .stop s.log).map fun r => (r.1.1, ⟨r.1.2, r.2⟩)

def delayedCalls (s : DelayedKvdb) : List Op → Except Fault (List Answer × DelayedKvdb)
  | [] => .ok ([], s)
  | op :: ops => do
    let (a, s) ← delayedCall hash s op
    let (as, s) ← delayedCalls s ops
    return (a :: as, s)

/-- A store is opened and called. -/
def delayedSession (device : Device) (junk : Nat → List UInt8) (sched : List Nat) (ops : List Op) :
    Except Fault (Option (List Answer)) := do
  match ← delayedKvdbOpen device junk sched with
  | none => return none
  | some s => (delayedCalls hash s ops).map fun r => some r.1

end

/-! ## The log under the store -/

variable {B N : Nat} {hash : List UInt8 → UInt64} {recs : List Rec} {f : StoreFront} {a : LogfsSt}

/-- `Kept`, for the store's log, whose appends do not fail. -/
def LogKept (B : Nat) (s : DelayedSt) (t : Scripted Nat LogSide) : Prop :=
  ∃ u, Kept B s u ∧ ∀ script, t script = ⟨u script, []⟩

abbrev LogKeeps (B : Nat) {α : Type} : Except Fault (α × DelayedSt) → (List Nat → Except Stop (α × LogSide)) → Prop :=
  Matched (fun e => e = .clash) (fun e => e = .assert) (fun e e' => e = .stop e') (LogKept B)

theorem serveDelayedLog_matched (q : LogAccess) (s : DelayedSt) (t : Scripted Nat LogSide) (h : LogKept B s t) :
    LogKeeps B (serveDelayedLog q s) fun script => serveLog q (t script) := by
  obtain ⟨u, hu, ht⟩ := h
  cases q with
  | append buf =>
    have hdelayed : serveDelayedLog (.append buf) s = ((delayedAppend s buf).map fun s => ((), s)).map fun r => (true, r.2) := by
      rw [serveDelayedLog]
      cases delayedAppend s buf with
      | error e => rfl
      | ok s => rfl
    have hlog : ∀ script, serveLog (.append buf) (t script) =
        ((logfsAppend (u script) buf).map fun v => ((), v)).map fun r => (true, ⟨r.2, []⟩) := by
      intro script
      rw [ht]
      simp only [serveLog, LogSide.kvraw, appendLog, List.headD_nil, Bool.false_eq_true, if_false]
      cases logfsAppend (u script) buf with
      | error e => rfl
      | ok v => rfl
    rw [hdelayed]
    simp only [hlog]
    exact (append_keeps hu buf).map fun _ s u _ hu => ⟨_, ⟨u, hu, fun _ => rfl⟩, fun _ => rfl⟩
  | read off len =>
    have hdelayed : serveDelayedLog (.read off len) s = (delayedRead s off len).map fun r => (r.1, r.2) := by
      rw [serveDelayedLog]
      cases delayedRead s off len with
      | error e => rfl
      | ok r => rfl
    have hlog : ∀ script, serveLog (.read off len) (t script) = (logfsRead (u script) off len).map fun r => (r.1, ⟨r.2, []⟩) := by
      intro script
      rw [ht]
      simp only [serveLog, LogSide.kvraw, readLog]
      cases logfsRead (u script) off len with
      | error e => rfl
      | ok r => rfl
    rw [hdelayed]
    simp only [hlog]
    exact (read_keeps hu off len).map fun _ s u _ hu => ⟨_, ⟨u, hu, fun _ => rfl⟩, fun _ => rfl⟩

theorem within_true {α : Type} (p : Keeper α) : p.Within (fun _ => True) fun _ => True := by
  induction p with
  | ret a => exact .ret trivial
  | stop e => exact .stop
  | ask q k ih => exact .ask trivial ih

theorem keeper_keeps {α : Type} (p : Keeper α) {s : DelayedSt} {t : Scripted Nat LogSide} (h : LogKept B s t) :
    LogKeeps B (p.run serveDelayedLog .stop s) fun script => p.run serveLog id (t script) :=
  Prog.run_matched (J := fun e e' => e = Fault.stop e') (fun _ => rfl) (fun q _ => serveDelayedLog_matched q) (within_true p) h

/-! ## Calls of the store -/

theorem StoreFront.call_outcome {l : LogSide} (h : Inv hash N (f.withLog l) recs) {op : Op} (hv : op.Valid) (hq : ¬ op.LengthQuery)
    (hfit : (image (opening :: recs)).length + written (bindings recs) op ≤ N) :
    Outcome (fun e => e = .exitIndex) ((f.call hash op).run serveLog id l) fun r => r.1.1 = expected (bindings recs) op ∧
      After hash N (r.1.2.withLog r.2) (rebind (bindings recs) op)
        ((image (opening :: recs)).length + written (bindings recs) op) := by
  have hrun : Kvdb.call hash (f.withLog l) op = _ := call_run op
  by_cases hexit : Kvdb.call hash (f.withLog l) op = .error .exitIndex
  · rw [hexit] at hrun
    cases hp : (f.call hash op).run serveLog id l with
    | error e =>
      rw [hp] at hrun
      cases hrun
      exact .error rfl
    | ok r =>
      rw [hp] at hrun
      cases hrun
  · obtain ⟨s', hs', hafter⟩ := call_ok h hv hq hfit hexit
    rw [hs'] at hrun
    obtain ⟨r, hr, he⟩ := exists_ok_of_map hrun.symm
    obtain ⟨hans, rfl⟩ := Prod.mk.inj he
    rw [hr]
    exact .ok ⟨hans, hafter⟩

/-- The opening record. -/
theorem open_outcome (hash : List UInt8 → UInt64) (d : Device) (junk : Nat → List UInt8) (sched : List Nat) (hfit : 18 ≤ d.size) :
    Outcome (fun _ => False) ((Keeper.kvrawAppend [0] [0] 0).run serveLog id ⟨logfsOpen d junk sched [], []⟩) fun r =>
      r.1 = true ∧ Inv hash d.size ((⟨0, 0, 18, indexOpen⟩ : StoreFront).withLog r.2) [] := by
  obtain ⟨s, hs, hi⟩ := kvdbOpen_ok hash d junk sched hfit
  have hrun := @kvrawAppend_run ⟨logfsOpen d junk sched [], []⟩ 0 [0] [0] 0
  change kvrawAppend ⟨0, logfsOpen d junk sched [], []⟩ [0] [0] 0 = _ at hrun
  rw [kvdbOpen, kvrawOpen, hrun] at hs
  cases hp : (Keeper.kvrawAppend [0] [0] 0).run serveLog id ⟨logfsOpen d junk sched [], []⟩ with
  | error e =>
    rw [hp] at hs
    cases hs
  | ok r =>
    obtain ⟨ok, l⟩ := r
    rw [hp] at hs
    cases ok with
    | false => cases hs
    | true =>
      cases hs
      exact .ok ⟨rfl, hi⟩

/-! ## Sessions -/

/-- The store's records, counting the block that is being written as on the device. -/
def Trails (hash : List UInt8 → UInt64) (N B : Nat) (s : DelayedKvdb) (recs : List Rec) : Prop :=
  ∃ a, Kept B s.log (fun script => { a with sched := script }) ∧ Inv hash N (s.front.withLog ⟨a, []⟩) recs

theorem Inv.withSched (h : Inv hash N (f.withLog ⟨a, []⟩) recs) (sched : List Nat) :
    Inv hash N (f.withLog ⟨{ a with sched }, []⟩) recs :=
  h.withRaw ⟨idle_sched h.raw.log sched, h.raw.size, h.raw.device, h.raw.fits, rfl⟩

/-- A log whose settled form is open to every schedule is one such form. -/
theorem LogKept.exists_settled {s : DelayedSt} {t : Scripted Nat LogSide} (h : LogKept B s t) :
    ∃ a, Kept B s (fun script => { a with sched := script }) ∧ t a.sched = ⟨a, []⟩ := by
  obtain ⟨u, ⟨⟨hs, a, ha, hu⟩, hsized⟩, ht⟩ := h
  refine ⟨a, ⟨⟨hs, a, ha, fun _ => rfl⟩, hsized⟩, ?_⟩
  rw [ht, hu]

theorem Trails.call {s : DelayedKvdb} (h : Trails hash N B s recs) {op : Op} (hv : op.Valid) (hq : ¬ op.LengthQuery)
    (hfit : (image (opening :: recs)).length + written (bindings recs) op ≤ N) :
    Outcome (fun e => e = .clash ∨ e = .stop .exitIndex) (delayedCall hash s op) fun r =>
      r.1 = expected (bindings recs) op ∧ ∃ recs', Trails hash N B r.2 recs' ∧ bindings recs' = rebind (bindings recs) op ∧
        (image (opening :: recs')).length = (image (opening :: recs)).length + written (bindings recs) op := by
  obtain ⟨a, hkept, hi⟩ := h
  let t : Scripted Nat LogSide := fun script => ⟨{ a with sched := script }, []⟩
  let post : Answer × StoreFront → LogSide → Prop := fun r l => r.1 = expected (bindings recs) op ∧
    After hash N (r.2.withLog l) (rebind (bindings recs) op) ((image (opening :: recs)).length + written (bindings recs) op)
  have hy : ∀ script, Outcome (fun e => e = .exitIndex) ((s.front.call hash op).run serveLog id (t script)) fun r =>
      post r.1 r.2 := fun script => StoreFront.call_outcome (hi.withSched script) hv hq hfit
  have hno : ∀ e : Stop, e = .exitIndex → ¬ e = .assert := fun e he ha => by
    rw [he] at ha
    cases ha
  have hout := ((keeper_keeps (s.front.call hash op) ⟨_, hkept, fun _ => rfl⟩).outcome hy hno).weaken
    fun e (he : e = .clash ∨ ∃ e', e' = .exitIndex ∧ e = .stop e') => he.imp_right fun he => by
      obtain ⟨_, rfl, he⟩ := he
      exact he
  refine hout.map fun r hr => ?_
  obtain ⟨t', hlog, hpost⟩ := hr
  obtain ⟨a', hkept', hat⟩ := hlog.exists_settled
  obtain ⟨hans, recs', hi', hm, hu⟩ := hpost a'.sched
  rw [hat] at hi'
  exact ⟨hans, recs', ⟨a', hkept', hi'⟩, hm, hu⟩

/-- How a session may stop: the slot of a block that is being written was filled, or the
    index gave up. -/
def Ends (e : Fault) : Prop := e = .clash ∨ e = .stop .exitIndex

theorem Trails.calls : ∀ (ops : List Op) {s : DelayedKvdb} {recs : List Rec}, Trails hash N B s recs →
    (∀ op ∈ ops, op.Valid ∧ ¬ op.LengthQuery) → Fits N (image (opening :: recs)).length (bindings recs) ops →
    Outcome Ends (delayedCalls hash s ops) fun r => r.1 = answers (bindings recs) ops := by
  intro ops
  induction ops with
  | nil => exact fun _ _ _ => .ok rfl
  | cons op ops ih =>
    intro s recs h hv hf
    obtain ⟨hvalid, hquery⟩ := hv op List.mem_cons_self
    refine (h.call hvalid hquery hf.1).bind fun r hr => ?_
    obtain ⟨a, s⟩ := r
    obtain ⟨rfl, recs', h', hm, hu⟩ := hr
    have hfits : Fits N (image (opening :: recs')).length (bindings recs') ops := by
      rw [hm, hu]
      exact hf.2
    refine (ih h' (fun op hop => hv op (List.mem_cons_of_mem _ hop)) hfits).bind fun r hr => ?_
    refine .ok ?_
    rw [answers, hr, hm]

theorem delayedKvdbOpen_ok (hash : List UInt8 → UInt64) (d : Device) (junk : Nat → List UInt8) (sched : List Nat)
    (hjunk : ∀ i, (junk i).length = d.block) (hfit : 18 ≤ d.size) :
    Outcome (fun e => e = .clash) (delayedKvdbOpen d junk sched) fun r =>
      ∃ s, r = some s ∧ Trails hash d.size d.block s [] := by
  have hkept : Kept d.block (delayedOpen d junk sched) fun script => logfsOpen d junk script [] :=
    Kept.opened hjunk
  let t : Scripted Nat LogSide := fun script => ⟨logfsOpen d junk script [], []⟩
  let post : Bool → LogSide → Prop := fun r l => r = true ∧ Inv hash d.size ((⟨0, 0, 18, indexOpen⟩ : StoreFront).withLog l) []
  have hy : ∀ script, Outcome (fun _ => False) ((Keeper.kvrawAppend [0] [0] 0).run serveLog id (t script)) fun r => post r.1 r.2 :=
    fun script => open_outcome hash d junk script hfit
  have hout := (keeper_keeps (Keeper.kvrawAppend [0] [0] 0) ⟨_, hkept, fun _ => rfl⟩).outcome hy fun _ he => he.elim
  refine (hout.weaken fun e he => ?_).map fun r hr => ?_
  · rcases he with he | ⟨_, he, -⟩
    · exact he
    · exact he.elim
  · obtain ⟨t', hlog, hpost⟩ := hr
    obtain ⟨a, hkept', hat⟩ := hlog.exists_settled
    obtain ⟨hok, hi⟩ := hpost a.sched
    rw [hat] at hi
    rw [if_pos hok]
    exact ⟨_, rfl, a, hkept', hi⟩

end Cs238p.Kvdb
