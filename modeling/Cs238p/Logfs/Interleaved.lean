/-
  Cs238p.Logfs.Interleaved — a client of the log of `project-4/logfs.c`, on two threads.

  A client is any program of appends and reads; what it asks may depend on what it was
  answered (`Client`). The byte array that `serveArray` keeps says what the log is for.

  Proved: in every interleaving of the caller's and the writer's accesses, until a clash, a
  client that stays in the bounds of the array answers what it answers on the array, no
  assertion fails, one of the threads can go on, and once the writer has caught up the
  array's whole blocks are on the device (`interleaved_log_is_byte_array`).
-/
import Cs238p.Logfs.DelayedRuns
import Cs238p.Logfs.Machine

namespace Cs238p.Logfs

open ByteMemory Calls

/-! ## Clients -/

inductive LogfsCall where
  /-- `logfs_append`. -/
  | append (buf : List UInt8)
  /-- `logfs_read`. -/
  | read (off len : Nat)

abbrev LogfsCall.Answer : LogfsCall → Type
  | .append _ => Unit
  | .read _ _ => Option (List UInt8)

abbrev Client := Prog LogfsCall LogfsCall.Answer Stop

/-- What a call does with the queue and the device. -/
def LogfsCall.program (B : Nat) : (q : LogfsCall) → Front → Caller (q.Answer × Front)
  | .append buf, f => do
    let f ← f.append B buf
    return ((), f)
  | .read off len, f => f.read B off len

/-- A freshly opened log with a client. -/
def clientOpen {α : Type} (device : Device) (junk : Nat → List UInt8) (p : Client α) : MachineSt (α × Front) :=
  machineOpen device junk ((p.via (LogfsCall.program device.block) (logfsOpen device junk [] []).front).expand QueueCall.program)

/-- The byte array: appends that fit `N` bytes, and reads of what is there. -/
def serveArray (N : Nat) : (q : LogfsCall) → List UInt8 → Except Stop (q.Answer × List UInt8)
  | .append buf, log => if log.length + buf.length ≤ N then .ok ((), log ++ buf) else .error .assert
  | .read off len, log => if off + len ≤ log.length then .ok (some ((log.drop off).take len), log) else .error .assert

/-- The functions of `Log.lean`. -/
def serveLogfs : (q : LogfsCall) → LogfsSt → Except Stop (q.Answer × LogfsSt)
  | .append buf, s => (logfsAppend s buf).map fun s => ((), s)
  | .read off len, s => logfsRead s off len

variable {α : Type} {B N : Nat} {s : LogfsSt} {f : Front} {log : List UInt8}

theorem serveQueue_putFront (q : QueueCall) (s : LogfsSt) :
    serveQueue q (s.putFront f) = (serveQueue q s).map fun r => (r.1, r.2.putFront f) := by
  cases q with
  | put b =>
    rw [serveQueue, serveQueue, writeToQueue_putFront]
    cases writeToQueue s b.buf b.blk with
    | error e => rfl
    | ok t => rfl
  | fetch blk => exact fetch_putFront

theorem serveQueue_blkSz (q : QueueCall) (s : LogfsSt) (r : q.Answer × LogfsSt) (hs : s.blkSz = B)
    (h : serveQueue q s = .ok r) : r.2.blkSz = B := by
  cases q with
  | put b =>
    obtain ⟨t, ht, rfl⟩ := exists_ok_of_map h
    exact (writeToQueue_blkSz ht).trans hs
  | fetch blk => exact (fetch_blkSz h).trans hs

theorem logfsCall_run (q : LogfsCall) (f : Front) (s : LogfsSt) (hs : s.blkSz = B) :
    serveLogfs q (s.putFront f) = ((q.program B f).run serveQueue id s).map fun r => (r.1.1, r.2.putFront r.1.2) := by
  subst hs
  cases q with
  | append buf =>
    rw [serveLogfs, append_run, Prog.run_map serveQueue_putFront]
    change _ = Except.map _ (((f.append s.blkSz buf).bind _).run serveQueue id s)
    rw [Prog.run_bind]
    change Except.map _ (Except.map _ (Except.map _ ((f.append s.blkSz buf).run serveQueue id s))) = _
    cases (f.append s.blkSz buf).run serveQueue id s with
    | error e => rfl
    | ok r => rfl
  | read off len =>
    rw [serveLogfs, read_run, Prog.run_map serveQueue_putFront]
    simp only [front_putFront, blkSz_putFront, LogfsCall.program]
    cases (f.read s.blkSz off len).run serveQueue id s with
    | error e => rfl
    | ok r => rfl

theorem client_run (p : Client α) (f : Front) {s : LogfsSt} (hs : s.blkSz = B) :
    p.run serveLogfs id (s.putFront f) =
      ((p.via (LogfsCall.program B) f).run serveQueue id s).map fun r => (r.1.1, r.2.putFront r.1.2) :=
  Prog.run_via logfsCall_run serveQueue_blkSz p hs

theorem logfsCall_within (q : LogfsCall) (f : Front) (h : f.Sized B) :
    (q.program B f).Within (PutFits B) fun r => r.2.Sized B := by
  cases q with
  | append buf => exact (append_within h buf).bind fun _ hf => .ret hf
  | read off len => exact read_within h

/-! ## What a program of queue calls ends with -/

variable {d : Device} {junk : Nat → List UInt8} {p : Caller α} {post : α → Prop} {X : Stop → Prop} {P : α → LogfsSt → Prop}

/-- `P` is kept by a writer that goes on draining. -/
def DrainKeeps (P : α → LogfsSt → Prop) : Prop := ∀ a u n, P a u → ∃ u', drainN n u = .ok u' ∧ P a u'

theorem Settled.background {s : DelayedSt} {t : Scripted Nat LogfsSt} {x : α} (h : Settled B s t) (hP : ∀ script, P x (t script))
    (hkeeps : DrainKeeps P) :
    Outcome (fun _ => False) (backgroundTicks s) fun s' => ∃ t', Settled B s' t' ∧ ∀ script, P x (t' script) := by
  obtain ⟨hs, a, ha, ht⟩ := h
  have hP' : ∀ sched, P x { a with sched } := fun sched => ht sched ▸ hP sched
  have hticks := backgroundTicks_ticked hs ha (Nat.le_refl _)
  generalize backgroundTicks s = y at hticks ⊢
  cases hticks with
  | stops k hk =>
    obtain ⟨u, hu, -⟩ := hkeeps _ _ k (hP' a.sched)
    rw [hk a.sched] at hu
    cases hu
  | @goes s' a' k hs' ha' hk =>
    refine .ok ⟨fun sched => { a' with sched }, ⟨hs', a', ha', fun _ => rfl⟩, fun sched => ?_⟩
    obtain ⟨u, hu, hx⟩ := hkeeps _ _ k (hP' sched)
    rw [hk sched] at hu
    cases hu
    exact hx

/-- What a program establishes on every schedule of `Log.lean`, it does in every
    interleaving without a clash, the outstanding write counted as made. -/
theorem Interleaves.settled (hp : p.Within (PutFits d.block) post) (hjunk : ∀ i, (junk i).length = d.block)
    (hy : ∀ script, Outcome X (p.run serveQueue id (logfsOpen d junk script [])) fun r => P r.1 r.2)
    (hX : ∀ e, X e → ¬ e = .assert) (hkeeps : DrainKeeps P) {m : MachineSt α}
    (hs : Interleaves d.block (machineOpen d junk (p.expand QueueCall.program)) m) :
    (∀ e, m.prog = .stop e → X e) ∧ ∀ a, m.prog = .ret a →
      ∃ t, Settled d.block (m.delayed (logfsOpen d junk [] []) []) t ∧ ∀ script, P a (t script) := by
  let E : Fault → Prop := fun e => e = .clash ∨ ∃ e', X e' ∧ e = .stop e'
  let ends : α → DelayedSt → Prop := fun a s => ∃ t, Settled d.block s t ∧ ∀ script, P a (t script)
  have hopen : ∀ sched, Settled d.block (delayedOpen d junk sched) fun script => logfsOpen d junk script [] :=
    fun _ => (Kept.opened hjunk).1
  have hall : ∀ sched, Outcome E ((machineOpen d junk (p.expand QueueCall.program)).remaining (logfsOpen d junk [] []) sched)
      fun r => ends r.1 r.2 := by
    intro sched
    have hrun : (p.expand QueueCall.program).run serveShared .stop (delayedOpen d junk sched) =
        p.run serveDelayed .stop (delayedOpen d junk sched) := Prog.run_expand program_run p _
    change Outcome E ((p.expand QueueCall.program).run serveShared .stop (delayedOpen d junk sched) >>= _) _
    rw [hrun]
    refine ((run_delays hp (hopen sched)).outcome hy hX).bind fun r hr => ?_
    obtain ⟨t, ht, hP⟩ := hr
    exact ((ht.background hP hkeeps).weaken fun _ he => he.elim).map fun s hs => hs
  obtain ⟨hstop, hret⟩ := hs.ends (machineInv_open d junk _) rfl hall
  refine ⟨fun e he => ?_, hret⟩
  obtain he | ⟨e', hx, he⟩ := hstop e he
  · cases he
  · cases he
    exact hx

/-! ## The byte array -/

theorem Idle.call (h : Idle s log) (hN : s.device.size = N) (hodd : ¬ s.blkSz ∣ 3) {q : LogfsCall} {x : q.Answer}
    {log' : List UInt8} (hq : serveArray N q log = .ok (x, log')) :
    ∃ t, serveLogfs q s = .ok (x, t) ∧ Idle t log' ∧ t.device.size = N ∧ t.blkSz = s.blkSz := by
  cases q with
  | append buf =>
    rw [serveArray] at hq
    split at hq
    · rename_i hfit
      cases hq
      have hfit' : s.blkSz * ((log.length + buf.length) / s.blkSz) ≤ s.device.size := by
        rw [hN]
        exact (Nat.mul_div_le _ _).trans hfit
      obtain ⟨t, ht, hi, hsize, hB⟩ := logfsAppend_ok h hfit'
      exact ⟨t, by rw [serveLogfs, ht]; rfl, hi, hsize.trans hN, hB⟩
    · cases hq
  | read off len =>
    rw [serveArray] at hq
    split at hq
    · rename_i hl
      cases hq
      obtain ⟨t, ht, hi, hsize, hB⟩ := logfsRead_ok h (Or.inl hodd) hl
      exact ⟨t, ht, hi, hsize.trans hN, hB⟩
    · cases hq

/-- A client of the array is one of the log. -/
theorem Idle.client (p : Client α) : ∀ {s : LogfsSt} {log log' : List UInt8} {x : α}, Idle s log → s.device.size = N → ¬ s.blkSz ∣ 3 →
    p.run (serveArray N) id log = .ok (x, log') →
    ∃ t, p.run serveLogfs id s = .ok (x, t) ∧ Idle t log' ∧ t.device.size = N := by
  induction p with
  | ret a =>
    intro s log log' x h hN _ hp
    cases hp
    exact ⟨s, rfl, h, hN⟩
  | stop e =>
    intro s log log' x _ _ _ hp
    cases hp
  | ask q k ih =>
    intro s log log' x h hN hodd hp
    rw [Prog.run_ask] at hp
    cases hq : serveArray N q log with
    | error e =>
      rw [hq] at hp
      cases hp
    | ok r =>
      obtain ⟨y, log₁⟩ := r
      rw [hq] at hp
      obtain ⟨t, ht, hi, hsize, hB⟩ := h.call hN hodd hq
      rw [Prog.run_ask, ht]
      exact ih y hi hsize (hB ▸ hodd) hp

theorem drainKeeps_idle (x : α) (log : List UInt8) (N : Nat) :
    DrainKeeps fun (r : α × Front) u => r.1 = x ∧ Idle (u.putFront r.2) log ∧ u.device.size = N := by
  intro r u n h
  obtain ⟨hx, hi, hN⟩ := h
  obtain ⟨v, hv, hi', hsize⟩ := hi.drains n
  rw [drainN_putFront] at hv
  obtain ⟨u', hu, rfl⟩ := exists_ok_of_map hv
  exact ⟨u', hu, hx, hi', hsize.trans hN⟩

section

variable (d : Device) (junk : Nat → List UInt8) (p : Client α) {x : α} {m : MachineSt (α × Front)}

/-- A client does in every interleaving what it does on the array. -/
theorem Interleaves.client (hjunk : ∀ i, (junk i).length = d.block) (hd : ¬ d.block ∣ 3)
    (hp : p.run (serveArray d.size) id [] = .ok (x, log)) (hs : Interleaves d.block (clientOpen d junk p) m) :
    (∀ e, m.prog ≠ .stop e) ∧ ∀ r, m.prog = .ret r → r.1 = x ∧ (m.pending = none → m.threads.wc.activeBlks = 0 →
      ∀ b ∈ blocks d.block log, m.device.bytes.read b.blk d.block = b.buf) := by
  let P : α × Front → LogfsSt → Prop := fun r u => r.1 = x ∧ Idle (u.putFront r.2) log ∧ u.device.size = d.size
  have hsized : (logfsOpen d junk [] []).front.Sized d.block := ⟨List.length_replicate, Nat.zero_add _⟩
  have hwithin := Prog.Within.via logfsCall_within p hsized
  have hy : ∀ script, Outcome (fun _ => False)
      ((p.via (LogfsCall.program d.block) (logfsOpen d junk [] []).front).run serveQueue id (logfsOpen d junk script []))
      fun r => P r.1 r.2 := by
    intro script
    obtain ⟨t, ht, hi, hN⟩ := Idle.client p (idle_open d junk script) rfl hd hp
    have hvia := client_run p (logfsOpen d junk [] []).front (show (logfsOpen d junk script []).blkSz = d.block from rfl)
    change p.run serveLogfs id (logfsOpen d junk script []) = _ at hvia
    rw [ht] at hvia
    obtain ⟨r, hr, he⟩ := exists_ok_of_map hvia.symm
    rw [hr]
    cases he
    exact .ok ⟨rfl, hi, hN⟩
  obtain ⟨hstop, hret⟩ := hs.settled hwithin hjunk hy (fun _ he => he.elim) (drainKeeps_idle x log d.size)
  refine ⟨fun e he => hstop e he, fun r hr => ?_⟩
  obtain ⟨t, ht, hP⟩ := hret r hr
  obtain ⟨hsound, a, ha, hat⟩ := @Settled.putFront d.block r.2 _ t ht
  obtain ⟨hx, hi, hN⟩ := hP a.sched
  have hta : (t a.sched).putFront r.2 = a := hat a.sched
  have hbehind : Behind d.size d.block ((m.delayed (logfsOpen d junk [] []) []).putFront r.2) log :=
    ⟨hsound, a, ha, hta ▸ hi, by rw [← hta]; exact hN⟩
  exact ⟨hx, hbehind.stored⟩

end

/-- Six bytes are appended and read back. -/
def readBack : Client (Option (List UInt8)) := do
  let _ ← Prog.call (LogfsCall.append [1, 2, 3, 4, 5, 6])
  Prog.call (LogfsCall.read 0 6)

/-- A step of the caller while nothing is being written. -/
theorem Interleaves.caller {m₀ m m' : MachineSt α} (h : Interleaves B m₀ m) (hs : CallerMove B m m') (hp : m.pending = none) :
    Interleaves B m₀ m' := by
  refine h.tail ⟨.caller hs, fun hclash => ?_⟩
  have hany := hclash.2.2
  rw [hp] at hany
  cases hany

/-- The caller alone. -/
theorem readBack_runs : ∃ m : MachineSt (Option (List UInt8) × Front),
    Interleaves 5 (clientOpen device10 (fun _ => [0, 0, 0, 0, 0]) readBack) m ∧ (∃ r, m.prog = .ret r) ∧ m.pending = none ∧
      m.threads.caller = .unlock ∧ m.threads.writer = .loop := by
  have h0 : Interleaves 5 (clientOpen device10 (fun _ => [0, 0, 0, 0, 0]) readBack) _ := .refl
  have h1 := Interleaves.caller h0 (.queue rfl rfl) rfl
  have h2 := Interleaves.caller h1 (.inCall (by intro e he; cases he) rfl (.lock rfl rfl)) rfl
  have h3 := Interleaves.caller h2 (.inCall (by intro e he; cases he) rfl (.room rfl (show ¬ 0 ≥ 32 by decide))) rfl
  have h4 := Interleaves.caller h3 (.fill rfl rfl) rfl
  have h5 := Interleaves.caller h4 (.inCall (by intro e he; cases he) rfl (.signalItem rfl)) rfl
  have h6 := Interleaves.caller h5 (.inCall (by intro e he; cases he) rfl (.unlock rfl)) rfl
  have h7 := Interleaves.caller h6 (.check rfl rfl) rfl
  have h8 := Interleaves.caller h7 (.inCall (by intro e he; cases he) rfl (.lockSlots rfl rfl)) rfl
  have h9 := Interleaves.caller h8 (.look rfl rfl) rfl
  exact ⟨_, h9, ⟨_, rfl⟩, rfl, rfl, rfl⟩

theorem readBack_on_array : readBack.run (serveArray 10) id [] = .ok (some [1, 2, 3, 4, 5, 6], [1, 2, 3, 4, 5, 6]) := rfl

end Cs238p.Logfs
