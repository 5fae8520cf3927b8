/-
  Cs238p.Logfs.DelayedRuns — runs of the log whose writer may stop between its two halves.

  Proved: whatever the ticks, a run of appends and reads answers what the byte array
  answers until a clash, and once the writer has made its 65 next ticks the whole blocks
  of the array are on the device (`delayed_log_is_byte_array`).
-/
import Cs238p.Logfs.Delayed

namespace Cs238p.Logfs

open ByteMemory Calls

/-- One call, `drain` being ticks of the writer. -/
def delayedStep (s : DelayedSt) : Op → Except Fault (Option (List UInt8) × DelayedSt)
  | .append buf => (delayedAppend s buf).map fun s => (some [], s)
  | .read off len => delayedRead s off len
  | .drain n => (tickN n s).map fun s => (some [], s)

def delayedRun (s : DelayedSt) : List Op → Except Fault (List (Option (List UInt8)) × DelayedSt)
  | [] => .ok ([], s)
  | op :: ops => do
    let (a, s) ← delayedStep s op
    let (as, s) ← delayedRun s ops
    return (a :: as, s)

/-- `logfs_open`. -/
def delayedOpen (device : Device) (junk : Nat → List UInt8) (sched : List Nat) : DelayedSt :=
  ⟨logfsOpen device junk sched [], none⟩

/-! ## What the caller asks for -/

/-- The current block is `B` bytes long, and `available` is what is left of it. -/
def Front.Sized (B : Nat) (f : Front) : Prop := f.curBlk.length = B ∧ f.curOff + f.available = B

variable {B N n : Nat} {f : Front} {s s' : DelayedSt} {t : Scripted Nat LogfsSt} {a : LogfsSt} {log : List UInt8}

theorem Front.Sized.invalidate (h : f.Sized B) : (f.invalidate B).Sized B := by
  unfold Front.invalidate
  simp only
  split
  · exact h
  · exact h

theorem length_splice {buf bs : List UInt8} {i : Nat} (h : i + bs.length ≤ buf.length) :
    (splice buf i bs).length = buf.length := by
  simp only [splice, List.length_append, List.length_take, List.length_drop]
  omega

/-- What is left over fits. -/
theorem appendLoop_within : ∀ (fuel : Nat) {f : Front} {buf : List UInt8}, f.Sized B →
    (f.appendLoop B fuel buf).Within (PutFits B) fun r => r.1.Sized B ∧ r.2.length ≤ r.1.available := by
  intro fuel
  induction fuel with
  | zero => exact fun _ => .stop
  | succ fuel ih =>
    intro f buf h
    rw [Front.appendLoop]
    split
    · rename_i hle
      have hfull : (splice f.curBlk f.curOff (buf.take f.available)).length = B := by
        rw [length_splice, h.1]
        rw [List.length_take_of_le hle, h.1]
        exact h.2.le
      exact .ask hfull fun _ => ih ⟨List.length_replicate, Nat.zero_add B⟩
    · rename_i hlt
      exact .ret ⟨h, (Nat.lt_of_not_le hlt).le⟩

theorem Front.Sized.keep {left : List UInt8} (h : f.Sized B) (hle : left.length ≤ f.available) : (f.keep left).Sized B := by
  obtain ⟨hlen, hleft⟩ := h
  unfold Front.keep
  split
  · refine ⟨(length_splice ?_).trans hlen, ?_⟩
    · omega
    · show f.curOff + left.length + (f.available - left.length) = B
      omega
  · exact ⟨hlen, hleft⟩

theorem append_within (h : f.Sized B) (buf : List UInt8) : (f.append B buf).Within (PutFits B) fun f => f.Sized B :=
  (appendLoop_within _ h.invalidate).bind fun _ hr => .ret (hr.1.keep hr.2)

theorem Front.Sized.fill {blk off len : Nat} {r : Option (List UInt8)} (h : f.Sized B) : (f.fill B blk off len r).2.Sized B := by
  cases r with
  | none => exact h
  | some buf => exact h

theorem readMem_within {blk off len : Nat} (h : f.Sized B) :
    (f.readMem B blk off len).Within (PutFits B) fun r => r.2.Sized B := by
  unfold Front.readMem
  simp only
  split
  · exact .ret h
  · split
    · exact .ret (Front.Sized.fill h)
    · exact .ask trivial fun _ => .ret (Front.Sized.fill h)

theorem readLoop_within : ∀ (fuel : Nat) {f : Front} {blk off left : Nat}, f.Sized B →
    (f.readLoop B fuel blk off left).Within (PutFits B) fun r => r.2.Sized B := by
  intro fuel
  induction fuel with
  | zero => exact fun _ => .stop
  | succ fuel ih =>
    intro f blk off left h
    rw [Front.readLoop]
    split
    · refine (readMem_within h).bind fun r hr => ?_
      obtain ⟨r, f'⟩ := r
      cases r with
      | none => exact .ret hr
      | some bs => exact (ih hr).bind fun _ hq => .ret hq
    · split
      · exact readMem_within h
      · exact .ret h

theorem read_within {off len : Nat} (h : f.Sized B) : (f.read B off len).Within (PutFits B) fun r => r.2.Sized B := by
  refine (readMem_within h).bind fun r hr => ?_
  obtain ⟨r, f'⟩ := r
  cases r with
  | none => exact .ret hr
  | some bs => exact (readLoop_within _ hr).bind fun _ hq => .ret hq

/-! ## The calls of the log match -/

/-- `Settled`, between two calls. -/
def Kept (B : Nat) (s : DelayedSt) (t : Scripted Nat LogfsSt) : Prop := Settled B s t ∧ s.log.front.Sized B

/-- On some script the two logs answer the same, until a clash. -/
abbrev Keeps (B : Nat) {α : Type} : Except Fault (α × DelayedSt) → (List Nat → Except Stop (α × LogfsSt)) → Prop :=
  Matched (fun e => e = .clash) (fun e => e = .assert) (fun e e' => e = .stop e') (Kept B)

theorem settle_front (ha : settle s = .ok a) : a.front = s.log.front := by rw [settle_eq ha]; rfl

theorem settle_blkSz (ha : settle s = .ok a) : a.blkSz = s.log.blkSz := by rw [settle_eq ha]

theorem settle_putFront (ha : settle s = .ok a) : settle (s.putFront f) = .ok (a.putFront f) := by
  obtain ⟨log, pending⟩ := s
  cases pending with
  | none =>
    cases ha
    rfl
  | some p =>
    simp only [settle] at ha
    simp only [settle, DelayedSt.putFront, LogfsSt.putFront]
    generalize deviceWrite log.device _ _ _ = w at ha ⊢
    cases w with
    | error e => cases ha
    | ok d =>
      cases ha
      rfl

theorem Settled.putFront (h : Settled B s t) : Settled B (s.putFront f) fun script => (t script).putFront f := by
  obtain ⟨hs, a, ha, ht⟩ := h
  exact ⟨⟨hs.blkSz, hs.block, hs.tail, hs.active, hs.slots, hs.pending⟩, _, settle_putFront ha,
    fun script => congrArg (·.putFront f) (ht script)⟩

theorem Settled.front_eq (h : Settled B s t) (script : List Nat) : (t script).front = s.log.front ∧ (t script).blkSz = B := by
  obtain ⟨hs, a, ha, ht⟩ := h
  rw [ht]
  change a.front = s.log.front ∧ a.blkSz = B
  exact ⟨settle_front ha, (settle_blkSz ha).trans hs.blkSz⟩

theorem run_delays {α : Type} {p : Caller α} {post : α → Prop} (hp : p.Within (PutFits B) post) (h : Settled B s t) :
    Delays B (p.run serveDelayed .stop s) fun script => p.run serveQueue id (t script) :=
  Prog.run_matched (J := fun e e' => e = Fault.stop e') (fun _ => rfl) serveDelayed_matched hp h

theorem Kept.opened {d : Device} {junk : Nat → List UInt8} {sched : List Nat} (hjunk : ∀ i, (junk i).length = d.block) :
    Kept d.block (delayedOpen d junk sched) fun script => logfsOpen d junk script [] := by
  refine ⟨⟨⟨rfl, rfl, Nat.zero_lt_succ _, Nat.zero_le _, fun i _ => hjunk i, ?_⟩, _, rfl, fun _ => rfl⟩,
    List.length_replicate, Nat.zero_add _⟩
  intro i buf hsome
  cases hsome

theorem append_keeps (h : Kept B s t) (buf : List UInt8) :
    Keeps B ((delayedAppend s buf).map fun s => ((), s)) fun script => (logfsAppend (t script) buf).map fun u => ((), u) := by
  have hwithin := append_within h.2 buf
  have hrun : ∀ script, (logfsAppend (t script) buf).map (fun u => ((), u)) =
      ((s.log.front.append B buf).run serveQueue id (t script)).map fun r => ((), r.2.putFront r.1) := by
    intro script
    rw [append_run, (h.1.front_eq script).1, (h.1.front_eq script).2]
    cases (s.log.front.append B buf).run serveQueue id (t script) with
    | error e => rfl
    | ok r => rfl
  have hdelayed : (delayedAppend s buf).map (fun s => ((), s)) =
      ((s.log.front.append B buf).run serveDelayed .stop s).map fun r => ((), r.2.putFront r.1) := by
    rw [delayedAppend, h.1.1.blkSz]
    cases (s.log.front.append B buf).run serveDelayed .stop s with
    | error e => rfl
    | ok r => rfl
  rw [hdelayed]
  simp only [hrun]
  exact (run_delays hwithin h.1).map fun f s t hx hr => ⟨_, ⟨hr.putFront, hwithin.run hx⟩, fun _ => rfl⟩

theorem read_keeps (h : Kept B s t) (off len : Nat) :
    Keeps B (delayedRead s off len) fun script => logfsRead (t script) off len := by
  have hwithin := @read_within B s.log.front off len h.2
  have hrun : ∀ script, logfsRead (t script) off len =
      ((s.log.front.read B off len).run serveQueue id (t script)).map fun r => (r.1.1, r.2.putFront r.1.2) := by
    intro script
    rw [read_run, (h.1.front_eq script).1, (h.1.front_eq script).2]
  rw [delayedRead, h.1.1.blkSz]
  simp only [hrun]
  exact (run_delays hwithin h.1).map fun r s t hx hr => ⟨_, ⟨hr.putFront, hwithin.run hx⟩, fun _ => rfl⟩

/-! ## One call -/

/-- `log` is what is appended, counting the block that is being written as on the device. -/
structure Behind (N B : Nat) (s : DelayedSt) (log : List UInt8) : Prop where
  sound : Sound B s
  settled : ∃ a, settle s = .ok a ∧ Idle a log ∧ a.device.size = N

theorem idle_sched (h : Idle a log) (sched : List Nat) : Idle { a with sched } log :=
  ⟨⟨h.core.blkSz, h.core.faults, h.core.off, h.core.curOff, h.core.available, h.core.curBlk, h.core.queue⟩, h.rcache⟩

theorem Idle.sized (h : Idle a log) (hB : a.blkSz = B) : a.front.Sized B := by
  have hmod := Nat.mod_lt log.length h.core.pos
  refine ⟨?_, ?_⟩
  · show a.curBlk.length = B
    rw [h.core.curBlk, length_padded, hB]
  · show a.curOff + a.available = B
    rw [h.core.curOff, h.core.available]
    omega

/-- What a call ends with on every schedule of `Log.lean`, it ends with here. -/
theorem Kept.outcome {α : Type} {x : Except Fault (α × DelayedSt)} {y : List Nat → Except Stop (α × LogfsSt)}
    {post : α → LogfsSt → Prop} (h : Keeps B x y) (hok : ∀ script, ∃ r, y script = .ok r ∧ post r.1 r.2) :
    Outcome (fun e => e = .clash) x fun r => Sound B r.2 ∧ ∃ a, settle r.2 = .ok a ∧ post r.1 a := by
  have hy : ∀ script, Outcome (fun _ => False) (y script) fun r => post r.1 r.2 := by
    intro script
    obtain ⟨r, hr, hpost⟩ := hok script
    rw [hr]
    exact .ok hpost
  refine ((h.outcome hy fun _ he => he.elim).weaken fun e he => ?_).mono fun r hr => ?_
  · rcases he with he | ⟨_, he, -⟩
    · exact he
    · exact he.elim
  · obtain ⟨t, ⟨⟨hs', a, ha, ht⟩, -⟩, hpost⟩ := hr
    have ht' := hpost a.sched
    rw [ht] at ht'
    exact ⟨hs', a, ha, ht'⟩

theorem Behind.kept (h : Behind N B s log) :
    ∃ a, Kept B s (fun script => { a with sched := script }) ∧ Idle a log ∧ a.device.size = N ∧ a.blkSz = B := by
  obtain ⟨hs, a, ha, hi, hN⟩ := h
  have hB : a.blkSz = B := (settle_blkSz ha).trans hs.blkSz
  exact ⟨a, ⟨⟨hs, a, ha, fun _ => rfl⟩, settle_front ha ▸ hi.sized hB⟩, hi, hN, hB⟩

theorem Behind.append {buf : List UInt8} (h : Behind N B s log) (hfit : log.length + buf.length ≤ N) :
    Outcome (fun e => e = .clash) (delayedAppend s buf) fun s => Behind N B s (log ++ buf) := by
  obtain ⟨a, hkept, hi, hN, -⟩ := h.kept
  let post : Unit → LogfsSt → Prop := fun _ u => Idle u (log ++ buf) ∧ u.device.size = N
  have hok : ∀ script, ∃ r, (logfsAppend { a with sched := script } buf).map (fun u => ((), u)) = .ok r ∧ post r.1 r.2 := by
    intro script
    have hfit' : a.blkSz * ((log.length + buf.length) / a.blkSz) ≤ a.device.size := by
      rw [hN]
      exact (Nat.mul_div_le _ _).trans hfit
    obtain ⟨u, hu, hi', hN', -⟩ := logfsAppend_ok (idle_sched hi script) hfit'
    exact ⟨((), u), by rw [hu]; rfl, hi', hN'.trans hN⟩
  refine (Kept.outcome (append_keeps hkept buf) hok).of_map.mono fun s' hs' => ?_
  obtain ⟨hs', a', ha', hi', hN'⟩ := hs'
  exact ⟨hs', a', ha', hi', hN'⟩

theorem Behind.read {off len : Nat} (h : Behind N B s log) (hodd : ¬ B ∣ 3) (hl : off + len ≤ log.length) :
    Outcome (fun e => e = .clash) (delayedRead s off len) fun r =>
      r.1 = some ((log.drop off).take len) ∧ Behind N B r.2 log := by
  obtain ⟨a, hkept, hi, hN, hB⟩ := h.kept
  let post : Option (List UInt8) → LogfsSt → Prop := fun r u =>
    r = some ((log.drop off).take len) ∧ Idle u log ∧ u.device.size = N
  have hok : ∀ script, ∃ r, logfsRead { a with sched := script } off len = .ok r ∧ post r.1 r.2 := by
    intro script
    have hpast : PastThree a.blkSz off := Or.inl (by rw [hB]; exact hodd)
    obtain ⟨u, hu, hi', hN', -⟩ := logfsRead_ok (idle_sched hi script) hpast hl
    exact ⟨_, hu, rfl, hi', hN'.trans hN⟩
  refine (Kept.outcome (read_keeps hkept off len) hok).mono fun r hr => ?_
  obtain ⟨hs', a', ha', hans, hi', hN'⟩ := hr
  exact ⟨hans, hs', a', ha', hi', hN'⟩

/-- The writer drains a log between two calls. -/
theorem Idle.drains (h : Idle a log) (k : Nat) : ∃ u, drainN k a = .ok u ∧ Idle u log ∧ u.device.size = a.device.size := by
  obtain ⟨u, hu, hd⟩ := drainN_ok k h.core.blkSz h.core.queue
  have hi := h.drained hd
  rw [← hd.blkSz] at hi
  obtain ⟨wc, d, sched, rfl, -, hsize, -⟩ := hd
  exact ⟨_, hu, hi, hsize⟩

/-- The writer goes on between two calls. -/
theorem Behind.ticks (h : Behind N B s log) (n : Nat) : ∃ s', tickN n s = .ok s' ∧ Behind N B s' log := by
  obtain ⟨hs, a, ha, hi, hN⟩ := h
  have hticks := tickN_ticked n hs ha (Nat.le_refl _)
  generalize tickN n s = x at hticks ⊢
  cases hticks with
  | stops k hk =>
    obtain ⟨u, hu, -⟩ := hi.drains k
    have hstop := hk a.sched
    rw [show drainN k { a with sched := a.sched } = .ok u from hu] at hstop
    cases hstop
  | @goes s' a' k hs' ha' hk =>
    obtain ⟨u, hu, hi', hN'⟩ := hi.drains k
    have hgo := hk a.sched
    rw [show drainN k { a with sched := a.sched } = .ok u from hu] at hgo
    cases hgo
    exact ⟨s', rfl, hs', a', ha', idle_sched hi' a'.sched, hN'.trans hN⟩

theorem Behind.step (h : Behind N B s log) (hodd : ¬ B ∣ 3) (op : Op) (ha : Allowed N log op) :
    Outcome (fun e => e = .clash) (delayedStep s op) fun r => r.1 = some (answer log op) ∧ Behind N B r.2 (appended log op) := by
  cases op with
  | append buf => exact (h.append ha).map fun _ hs => ⟨rfl, hs⟩
  | read off len => exact h.read hodd ha
  | drain n =>
    obtain ⟨s', hs', hb⟩ := h.ticks n
    rw [delayedStep, hs']
    exact .ok ⟨rfl, hb⟩

/-! ## Runs -/

theorem Behind.run : ∀ (ops : List Op) {s : DelayedSt} {log : List UInt8}, Behind N B s log → ¬ B ∣ 3 →
    AllAllowed N log ops → Outcome (fun e => e = .clash) (delayedRun s ops) fun r =>
      r.1 = answers log ops ∧ Behind N B r.2 (ops.foldl appended log) := by
  intro ops
  induction ops with
  | nil => exact fun h _ _ => .ok ⟨rfl, h⟩
  | cons op ops ih =>
    intro s log h hodd ha
    refine (h.step hodd op ha.1).bind fun r hr => ?_
    obtain ⟨a, s⟩ := r
    obtain ⟨rfl, hb⟩ := hr
    refine (ih hb hodd ha.2).bind fun r hr => ?_
    exact .ok ⟨by rw [answers, hr.1], hr.2⟩

/-- Halves of `write_to_device` that are left to do. -/
def halvesLeft (s : DelayedSt) : Nat := 2 * s.log.wc.activeBlks + s.pending.isSome.toNat

theorem tick_left (h : s.log.wc.activeBlks ≤ 32) (ht : tick s = .ok s') :
    halvesLeft s' = halvesLeft s - 1 ∧ s'.log.wc.activeBlks ≤ 32 := by
  unfold tick at ht
  cases hp : s.pending with
  | some p =>
    rw [hp] at ht
    simp only at ht
    split at ht
    · cases ht
    · cases ht
      simp only [halvesLeft, hp]
      exact ⟨rfl, h⟩
  | none =>
    rw [hp] at ht
    simp only at ht
    by_cases h0 : s.log.wc.activeBlks = 0
    · rw [if_pos h0] at ht
      cases ht
      simp only [halvesLeft, hp, h0]
      exact ⟨rfl, by omega⟩
    · rw [if_neg h0] at ht
      cases ht
      simp only [halvesLeft, hp, dequeue, Option.isSome_some, Option.isSome_none, Bool.toNat_true, Bool.toNat_false]
      omega

theorem tickN_left : ∀ (n : Nat) {s : DelayedSt}, s.log.wc.activeBlks ≤ 32 → tickN n s = .ok s' →
    halvesLeft s' = halvesLeft s - n := by
  intro n
  induction n with
  | zero =>
    intro s _ ht
    cases ht
    rfl
  | succ n ih =>
    intro s h ht
    rw [tickN] at ht
    cases hs : tick s with
    | error e =>
      rw [hs] at ht
      cases ht
    | ok u =>
      rw [hs] at ht
      obtain ⟨hleft, hle⟩ := tick_left h hs
      have := ih hle ht
      omega

/-- With nothing queued and nothing being written the blocks are on the device. -/
theorem Behind.stored (h : Behind N B s log) (hnone : s.pending = none) (h0 : s.log.wc.activeBlks = 0) :
    ∀ b ∈ blocks B log, s.log.device.bytes.read b.blk B = b.buf := by
  obtain ⟨hs, a, ha, hi, -⟩ := h
  rw [settle_none hnone] at ha
  cases ha
  have hq := hi.core.queue
  rw [hs.blkSz] at hq
  obtain ⟨junk, taken, hf, hst⟩ := hq.fifo
  intro b hb
  obtain ⟨k, hk, rfl⟩ := List.getElem_of_mem hb
  have hstored := hst k hk (by have := hf.active; omega)
  rw [hs.block] at hstored
  exact hstored

/-- Two ticks for each slot and one for the block that is being written. -/
theorem Behind.written (h : Behind N B s log) :
    ∃ s', tickN 65 s = .ok s' ∧ ∀ b ∈ blocks B log, s'.log.device.bytes.read b.blk B = b.buf := by
  obtain ⟨s', ht, hb⟩ := h.ticks 65
  have hle := h.sound.active
  have hpend : s.pending.isSome.toNat ≤ 1 := Bool.toNat_le _
  have hleft := tickN_left 65 hle ht
  unfold halvesLeft at hleft
  have hnone : s'.pending = none := by
    cases hp : s'.pending with
    | none => rfl
    | some p =>
      rw [hp] at hleft
      simp only [Option.isSome_some, Bool.toNat_true] at hleft
      omega
  exact ⟨s', ht, hb.stored hnone (by omega)⟩

def device10 : Device := ⟨10, 5, ⟨fun _ => 0⟩, by decide, by decide, by decide⟩

/-- Read while the first block is on its way to the device. -/
def halfWritten : List Op := [.append [1, 2, 3, 4, 5, 6], .drain 1, .read 0 6, .append [7, 8, 9], .read 4 5]

end Cs238p.Logfs
