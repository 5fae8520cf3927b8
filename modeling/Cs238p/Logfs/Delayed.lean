/-
  Cs238p.Logfs.Delayed — the log of `project-4/logfs.c` with a writer that may stop between
  its two halves.

  `write_to_device` copies the tail slot and frees it under the mutex, and writes the copy
  to the device later, at the number the slot then has (`tick`: one of the two). `Log.lean`
  does both at once. Here a schedule says how many ticks the writer makes before each of
  the caller's accesses to the queue or the device, and after a wait for space.

  The caller may fill the freed slot before the device write. That is a `clash`, and the
  model follows the run no further; what becomes of it is in `Writer.lean`.

  Proved: each call on the queue does what it does in `Log.lean` on some schedule there
  (`serveDelayed_matched`, where `settle` makes the write that is outstanding); so whatever
  the ticks, appends and reads answer what the byte array answers, until a clash
  (`delayed_log_is_byte_array`).
-/
import Cs238p.Logfs.Calls

namespace Cs238p.Logfs

open ByteMemory Calls

inductive Fault where
  | stop (e : Stop)
  /-- The slot of the block that is being written was filled. -/
  | clash

structure DelayedSt where
  log : LogfsSt
  /-- `wcache_unit` and the copied bytes, between the unlock and the device write. -/
  pending : Option (Nat × List UInt8)

/-! ## The writer -/

/-- The writer's next half of `write_to_device`; with nothing queued it waits. -/
def tick (s : DelayedSt) : Except Fault DelayedSt :=
  match s.pending with
  | some (i, buf) =>
    match deviceWrite s.log.device buf (s.log.wc.slots i).blk s.log.blkSz with
    | .error e => .error (.stop e)
    | .ok device => .ok ⟨{ s.log with device }, none⟩
  | none =>
    if s.log.wc.activeBlks = 0 then .ok s
    else
      let (copied, wc) := dequeue s.log.wc
      .ok ⟨{ s.log with wc }, some copied⟩

def tickN : Nat → DelayedSt → Except Fault DelayedSt
  | 0, s => .ok s
  | n + 1, s => tick s >>= tickN n

/-- What the writer does before the caller's next access. -/
def backgroundTicks (s : DelayedSt) : Except Fault DelayedSt :=
  match s.log.sched with
  | [] => .ok s
  | n :: sched => tickN n ⟨{ s.log with sched }, s.pending⟩

/-! ## The calls -/

/-- The wait for space: the writer frees a slot, and may go on before the caller wakes. -/
def waitForTicks (s : DelayedSt) : Except Fault DelayedSt :=
  if s.log.wc.activeBlks ≥ 32 then tickN (if s.pending.isSome then 2 else 1) s >>= backgroundTicks else .ok s

/-- The critical section of `write_to_queue`. -/
def putBlock (s : DelayedSt) (b : Block) : Except Fault DelayedSt :=
  if s.pending.any fun p => p.1 == s.log.wc.head then .error .clash
  else .ok ⟨{ s.log with wc := enqueue s.log.wc b }, s.pending⟩

/-- The device read of `read_mem`. -/
def readNow (s : DelayedSt) (blk : Nat) : Except Fault (Option (List UInt8) × DelayedSt) :=
  match deviceRead s.log.device (s.log.faults.headD false) blk s.log.blkSz with
  | .error e => .error (.stop e)
  | .ok r => .ok (r, ⟨{ s.log with faults := s.log.faults.tail }, s.pending⟩)

def fetchNow (s : DelayedSt) (blk : Nat) : Except Fault (Option (List UInt8) × DelayedSt) :=
  match checkInWcache s.log.wc blk with
  | some buf => .ok (some buf, s)
  | none => do
    let s ← backgroundTicks s
    readNow s blk

def serveDelayed : (q : QueueCall) → DelayedSt → Except Fault (q.Answer × DelayedSt)
  | .put b, s => do
    let s ← backgroundTicks s
    let s ← waitForTicks s
    let s ← putBlock s b
    return ((), s)
  | .fetch blk, s => do
    let s ← backgroundTicks s
    fetchNow s blk

def DelayedSt.putFront (s : DelayedSt) (f : Front) : DelayedSt := ⟨s.log.putFront f, s.pending⟩

/-- `logfs_append`. -/
def delayedAppend (s : DelayedSt) (buf : List UInt8) : Except Fault DelayedSt :=
  ((s.log.front.append s.log.blkSz buf).run serveDelayed .stop s).map fun r => r.2.putFront r.1

/-- `logfs_read`. -/
def delayedRead (s : DelayedSt) (off len : Nat) : Except Fault (Option (List UInt8) × DelayedSt) :=
  ((s.log.front.read s.log.blkSz off len).run serveDelayed .stop s).map fun r => (r.1.1, r.2.putFront r.1.2)

/-! ## The outstanding write -/

/-- The log once the outstanding write is made. -/
def settle (s : DelayedSt) : Except Stop LogfsSt :=
  match s.pending with
  | none => .ok s.log
  | some (i, buf) =>
    match deviceWrite s.log.device buf (s.log.wc.slots i).blk s.log.blkSz with
    | .error e => .error e
    | .ok device => .ok { s.log with device }

/-- Blocks of `B` bytes in a ring of 32 slots. -/
structure Sound (B : Nat) (s : DelayedSt) : Prop where
  blkSz : s.log.blkSz = B
  block : s.log.device.block = B
  tail : s.log.wc.tail < 32
  active : s.log.wc.activeBlks ≤ 32
  slots : ∀ i < 32, (s.log.wc.slots i).buf.length = B
  pending : ∀ i buf, s.pending = some (i, buf) → i < 32 ∧ buf.length = B

/-- `t`, the log of `Log.lean`, whose schedule is still open, is `s` settled. -/
def Settled (B : Nat) (s : DelayedSt) (t : Scripted Nat LogfsSt) : Prop :=
  Sound B s ∧ ∃ a, settle s = .ok a ∧ ∀ sched, t sched = { a with sched }

variable {B : Nat} {s s' : DelayedSt} {t : Scripted Nat LogfsSt} {a a' : LogfsSt}

theorem settle_none (h : s.pending = none) : settle s = .ok s.log := by
  unfold settle
  rw [h]

/-- What settling leaves as it is. -/
theorem settle_eq (h : settle s = .ok a) : a = { s.log with device := a.device } := by
  unfold settle at h
  split at h
  · cases h
    rfl
  · split at h
    · cases h
    · cases h
      rfl

theorem deviceWrite_error {d : Device} {buf : List UInt8} {off len : Nat} {e : Stop}
    (h : deviceWrite d buf off len = .error e) : e = .assert := by
  unfold deviceWrite at h
  split at h
  · cases h
  · cases h
    rfl

theorem drain_error {e : Stop} (h : drain a = .error e) : e = .assert := by
  unfold drain at h
  split at h
  · cases h
  · simp only [dequeue] at h
    split at h
    · cases h
      rename_i hw
      exact deviceWrite_error hw
    · cases h

theorem drain_sched (sched : List Nat) : drain { a with sched } = (drain a).map ({ · with sched }) := by
  by_cases h0 : a.wc.activeBlks = 0
  · rw [drain, drain, if_pos h0, if_pos h0]
    rfl
  · rw [drain, drain, if_neg h0, if_neg h0]
    simp only [dequeue]
    generalize deviceWrite a.device _ _ _ = w
    cases w with
    | error e => rfl
    | ok d => rfl

theorem drainN_add (m n : Nat) : ∀ {a : LogfsSt}, drainN (m + n) a = drainN m a >>= drainN n := by
  induction m with
  | zero =>
    intro a
    rw [Nat.zero_add]
    rfl
  | succ m ih =>
    intro a
    rw [Nat.succ_add, drainN, drainN]
    cases drain a with
    | error e => rfl
    | ok a' => exact ih

/-! ## Ticks are drains -/

/-- `x` are ticks from `s`, whose settled log is `a`, that leave at most `n` blocks active:
    they drain some number of blocks of `a`, on which `Log.lean` may stop. -/
inductive Ticked (B : Nat) (s : DelayedSt) (a : LogfsSt) (n : Nat) : Except Fault DelayedSt → Prop
  | stops {x : Except Fault DelayedSt} (k : Nat) : (∀ sched, drainN k { a with sched } = .error .assert) → Ticked B s a n x
  | goes {s' : DelayedSt} {a' : LogfsSt} (k : Nat) : Sound B s' → settle s' = .ok a' →
      (∀ sched, drainN k { a with sched } = .ok { a' with sched }) → s'.log.wc.slots = s.log.wc.slots →
      s'.log.wc.activeBlks ≤ n → Ticked B s a n (.ok s')

variable {m n : Nat} {x : Except Fault DelayedSt}

theorem Ticked.refl (h : Sound B s) (ha : settle s = .ok a) : Ticked B s a s.log.wc.activeBlks (.ok s) :=
  .goes 0 h ha (fun _ => rfl) rfl (Nat.le_refl _)

theorem Ticked.bind {f : DelayedSt → Except Fault DelayedSt} (h : Ticked B s a n x)
    (hf : ∀ s' a', Sound B s' → settle s' = .ok a' → s'.log.wc.activeBlks ≤ n → Ticked B s' a' m (f s')) :
    Ticked B s a m (x >>= f) := by
  cases h with
  | stops k hk => exact .stops k hk
  | @goes s' a' k hs' ha' hk hslots hact =>
    rw [ok_bind]
    generalize hx : f s' = x
    have hnext := hf s' a' hs' ha' hact
    rw [hx] at hnext
    have hadd : ∀ (j : Nat) sched, drainN (k + j) { a with sched } = drainN j { a' with sched } := fun j sched => by
      rw [drainN_add, hk, ok_bind]
    cases hnext with
    | stops j hj => exact .stops (k + j) fun sched => (hadd j sched).trans (hj sched)
    | goes j hs'' ha'' hj hslots' hact' =>
      exact .goes (k + j) hs'' ha'' (fun sched => (hadd j sched).trans (hj sched)) (hslots'.trans hslots) hact'

theorem Ticked.lower (h : Ticked B s a n x) (hx : ∀ s', x = .ok s' → s'.log.wc.activeBlks ≤ m) : Ticked B s a m x := by
  cases h with
  | stops k hk => exact .stops k hk
  | goes k hs' ha' hk hslots _ => exact .goes k hs' ha' hk hslots (hx _ rfl)

/-- One tick makes the outstanding write, or takes one block more. -/
theorem tick_ticked (h : Sound B s) (ha : settle s = .ok a) : Ticked B s a s.log.wc.activeBlks (tick s) := by
  unfold tick
  cases hp : s.pending with
  | some p =>
    obtain ⟨i, buf⟩ := p
    simp only [settle, hp] at ha
    cases hw : deviceWrite s.log.device buf (s.log.wc.slots i).blk s.log.blkSz with
    | error e =>
      rw [hw] at ha
      cases ha
    | ok device =>
      rw [hw] at ha
      cases ha
      have hblock : device.block = s.log.device.block := by rw [deviceWrite_eq hw]
      let s' : DelayedSt := ⟨{ s.log with device }, none⟩
      have hs' : Sound B s' := by
        refine ⟨h.blkSz, hblock.trans h.block, h.tail, h.active, h.slots, ?_⟩
        intro i buf hnone
        cases hnone
      have hgo : Ticked B s { s.log with device } s.log.wc.activeBlks (.ok s') :=
        .goes 0 hs' (settle_none rfl) (fun _ => rfl) rfl (Nat.le_refl _)
      simp only [hw]
      exact hgo
  | none =>
    rw [settle_none hp] at ha
    cases ha
    simp only
    by_cases h0 : s.log.wc.activeBlks = 0
    · rw [if_pos h0]
      exact .refl h (settle_none hp)
    · rw [if_neg h0]
      have hdrain : ∀ sched, drainN 1 { s.log with sched } = (drain s.log).map ({ · with sched }) := fun sched => by
        rw [drainN, drain_sched]
        cases drain s.log with
        | error e => rfl
        | ok a => rfl
      cases hd : drain s.log with
      | error e =>
        rw [drain_error hd] at hd
        exact .stops 1 fun sched => by rw [hdrain, hd]; rfl
      | ok a' =>
        have hle := h.active
        let s' : DelayedSt := ⟨{ s.log with wc := (dequeue s.log.wc).2 }, some (dequeue s.log.wc).1⟩
        have hact : s'.log.wc.activeBlks ≤ s.log.wc.activeBlks := by
          simp only [s', dequeue]
          omega
        have hs' : Sound B s' := by
          refine ⟨h.blkSz, h.block, Nat.mod_lt _ (by decide), hact.trans hle, h.slots, ?_⟩
          intro i buf hsome
          cases hsome
          exact ⟨h.tail, h.slots _ h.tail⟩
        have ha' : settle s' = .ok a' := by
          rw [drain, if_neg h0] at hd
          exact hd
        exact .goes 1 hs' ha' (fun sched => by rw [hdrain, hd]; rfl) rfl hact

theorem tickN_ticked : ∀ (k : Nat) {s : DelayedSt} {a : LogfsSt}, Sound B s → settle s = .ok a → s.log.wc.activeBlks ≤ n →
    Ticked B s a n (tickN k s) := by
  intro k
  induction k with
  | zero => exact fun {s a} h ha hn => .goes 0 h ha (fun _ => rfl) rfl hn
  | succ k ih => exact fun {s a} h ha hn => (tick_ticked h ha).bind fun s' a' hs' ha' hle => ih hs' ha' (hle.trans hn)

theorem settle_sched (sched : List Nat) :
    settle ⟨{ s.log with sched }, s.pending⟩ = (settle s).map ({ · with sched }) := by
  unfold settle
  cases s.pending with
  | none => rfl
  | some p =>
    simp only
    generalize deviceWrite s.log.device _ _ _ = w
    cases w with
    | error e => rfl
    | ok d => rfl

theorem settle_faults {faults : List Bool} (h : settle s = .ok a) :
    settle ⟨{ s.log with faults }, s.pending⟩ = .ok { a with faults } := by
  unfold settle at h ⊢
  cases hp : s.pending with
  | none =>
    rw [hp] at h
    cases h
    rfl
  | some p =>
    rw [hp] at h
    simp only at h ⊢
    generalize deviceWrite s.log.device _ _ _ = w at h ⊢
    cases w with
    | error e => cases h
    | ok d =>
      cases h
      rfl

theorem backgroundTicks_ticked (h : Sound B s) (ha : settle s = .ok a) (hn : s.log.wc.activeBlks ≤ n) :
    Ticked B s a n (backgroundTicks s) := by
  unfold backgroundTicks
  cases s.log.sched with
  | nil => exact .goes 0 h ha (fun _ => rfl) rfl hn
  | cons k sched =>
    have hs : Sound B ⟨{ s.log with sched }, s.pending⟩ := ⟨h.blkSz, h.block, h.tail, h.active, h.slots, h.pending⟩
    have hsettle : settle ⟨{ s.log with sched }, s.pending⟩ = .ok { a with sched } := by
      rw [settle_sched, ha]
      rfl
    have hticks := tickN_ticked k hs hsettle hn
    simp only
    generalize tickN k _ = x at hticks ⊢
    cases hticks with
    | stops j hj => exact .stops j hj
    | goes j hs' ha' hj hslots hact => exact .goes j hs' ha' hj hslots hact

/-- The writer that has a block to write first takes the next one after it. -/
theorem tickN_frees (h : s.log.wc.activeBlks = 32) (ht : tickN (if s.pending.isSome then 2 else 1) s = .ok s') :
    s'.log.wc.activeBlks ≤ 31 := by
  have take : ∀ {s s' : DelayedSt}, s.log.wc.activeBlks = 32 → s.pending = none → tickN 1 s = .ok s' →
      s'.log.wc.activeBlks ≤ 31 := by
    intro s s' h hp ht
    have h0 : ¬ s.log.wc.activeBlks = 0 := by omega
    simp only [tickN, tick, hp, if_neg h0, ok_bind] at ht
    cases ht
    simp only [dequeue, h]
    decide
  cases hp : s.pending with
  | none =>
    rw [hp] at ht
    exact take h hp ht
  | some p =>
    rw [hp] at ht
    change tick s >>= tickN 1 = .ok s' at ht
    simp only [tick, hp] at ht
    cases hw : deviceWrite s.log.device p.2 (s.log.wc.slots p.1).blk s.log.blkSz with
    | error e =>
      rw [hw] at ht
      cases ht
    | ok device =>
      rw [hw] at ht
      let s₁ : DelayedSt := ⟨{ s.log with device }, none⟩
      exact @take s₁ s' h rfl ht

/-- The writer runs, and the caller waits until a slot is free. -/
theorem room_ticked (h : Sound B s) (ha : settle s = .ok a) : Ticked B s a 31 (backgroundTicks s >>= waitForTicks) := by
  refine (backgroundTicks_ticked h ha (Nat.le_refl _)).bind fun s a h ha _ => ?_
  have hle := h.active
  unfold waitForTicks
  by_cases hfull : s.log.wc.activeBlks ≥ 32
  · rw [if_pos hfull]
    have hfree := (tickN_ticked (if s.pending.isSome then 2 else 1) h ha hle).lower fun s' hs' => tickN_frees (by omega) hs'
    exact hfree.bind fun s a h ha hn => backgroundTicks_ticked h ha hn
  · rw [if_neg hfull]
    exact .goes 0 h ha (fun _ => rfl) rfl (by omega)

/-! ## The calls match -/

/-- On some script the two logs answer the same and stay settled, until a clash. -/
abbrev Delays (B : Nat) {α : Type} : Except Fault (α × DelayedSt) → (List Nat → Except Stop (α × LogfsSt)) → Prop :=
  Matched (fun e => e = .clash) (fun e => e = .assert) (fun e e' => e = .stop e') (Settled B)

theorem background_cons (k : Nat) (rest : List Nat) (ht : ∀ sched, t sched = { a with sched }) :
    background (t (k :: rest)) = drainN k { a with sched := rest } := by
  rw [ht]
  rfl

theorem put_delays {b : Block} (h : Settled B s t) (hb : b.buf.length = B) :
    Delays B (serveDelayed (.put b) s) fun script => serveQueue (.put b) (t script) := by
  obtain ⟨hs, a, ha, ht⟩ := h
  have hserve : serveDelayed (.put b) s =
      (backgroundTicks s >>= waitForTicks) >>= fun s => putBlock s b >>= fun s => .ok ((), s) := by
    rw [serveDelayed]
    cases backgroundTicks s with
    | error e => rfl
    | ok s => rfl
  have hqueue : ∀ script, serveQueue (.put b) (t script) = (writeToQueue (t script) b.buf b.blk).map fun s => ((), s) :=
    fun _ => rfl
  rw [hserve]
  simp only [hqueue]
  have hroom := room_ticked hs ha
  generalize backgroundTicks s >>= waitForTicks = x at hroom ⊢
  cases hroom with
  | stops k hk =>
    refine .stops [k] .assert rfl fun rest => ?_
    rw [writeToQueue, List.singleton_append, background_cons k rest ht, hk]
    rfl
  | @goes s' a' k hs' ha' hk hslots hact =>
    rw [ok_bind, putBlock]
    by_cases hclash : (s'.pending.any fun p => p.1 == s'.log.wc.head) = true
    · rw [if_pos hclash]
      exact .excused rfl
    rw [if_neg hclash]
    have hwc : a'.wc = s'.log.wc := by rw [settle_eq ha']
    have hdone : settle ⟨{ s'.log with wc := enqueue s'.log.wc b }, s'.pending⟩ = .ok { a' with wc := enqueue a'.wc b } := by
      rw [hwc]
      cases hp : s'.pending with
      | none =>
        rw [settle_none hp] at ha'
        cases ha'
        rfl
      | some p =>
        obtain ⟨i, buf⟩ := p
        have hi : i ≠ s'.log.wc.head := by simpa [hp] using hclash
        simp only [settle, hp] at ha'
        simp only [settle, enqueue, Function.update_of_ne hi]
        split at ha'
        · cases ha'
        · cases ha'
          rfl
    refine .answers [k] (fun sched => { a' with wc := enqueue a'.wc b, sched }) ⟨⟨hs'.blkSz, hs'.block, hs'.tail, ?_, ?_, hs'.pending⟩,
      _, hdone, fun _ => rfl⟩ fun rest => ?_
    · simp only [enqueue]
      omega
    · intro i hi
      simp only [enqueue]
      by_cases hh : i = s'.log.wc.head
      · rw [hh, Function.update_self]
        exact hb
      · rw [Function.update_of_ne hh]
        exact hs'.slots i hi
    · have hroom : ¬ a'.wc.activeBlks ≥ 32 := by
        rw [hwc]
        omega
      rw [writeToQueue, List.singleton_append, background_cons k rest ht, hk]
      simp only [waitForSpace, if_neg hroom]
      rfl

theorem deviceRead_error {d : Device} {fails : Bool} {off len : Nat} (h : ¬ d.Admits off len) :
    deviceRead d fails off len = .error .assert := if_neg h

/-- The outstanding write is not where the read is: the block written has its number in a
    slot still. -/
theorem settle_read {fails : Bool} {blk : Nat} (h : Sound B s) (ha : settle s = .ok a) (hmiss : checkInWcache s.log.wc blk = none)
    (hadm : a.device.Admits blk B) : deviceRead s.log.device fails blk B = deviceRead a.device fails blk B := by
  unfold settle at ha
  cases hp : s.pending with
  | none =>
    rw [hp] at ha
    cases ha
    rfl
  | some p =>
    obtain ⟨i, buf⟩ := p
    rw [hp] at ha
    obtain ⟨hi, hlen⟩ := h.pending i buf hp
    simp only at ha
    split at ha
    · cases ha
    · cases ha
      rename_i device hw
      have hne : blk ≠ (s.log.wc.slots i).blk := by
        intro he
        rw [checkInWcache, Option.map_eq_none_iff, List.find?_eq_none] at hmiss
        exact hmiss i (List.mem_range.mpr hi) (beq_iff_eq.mpr he.symm)
      have hd := deviceWrite_eq hw
      have hthere : s.log.device.Admits (s.log.wc.slots i).blk s.log.blkSz := by
        by_contra hno
        rw [deviceWrite, if_neg hno] at hw
        cases hw
      subst hd
      have hhere : s.log.device.Admits blk B := hadm
      unfold deviceRead
      rw [if_pos hhere, if_pos hadm]
      have haway := Mem.aligned_disjoint hhere.1 hthere.1 hne
      rw [h.block, ← hlen] at haway
      rw [hlen] at haway
      simp only
      rw [Mem.read_write_of_disjoint (by rw [hlen]; exact haway)]

/-- The device read behind the slots. -/
theorem read_delays {blk : Nat} (h : Settled B s t) (hmiss : checkInWcache s.log.wc blk = none) :
    Delays B (backgroundTicks s >>= fun s => readNow s blk) fun script => readDevice (t script) blk := by
  obtain ⟨hs, a, ha, ht⟩ := h
  have hticks := backgroundTicks_ticked hs ha (Nat.le_refl _)
  generalize backgroundTicks s = x at hticks ⊢
  cases hticks with
  | stops k hk =>
    refine .stops [k] .assert rfl fun rest => ?_
    rw [readDevice, List.singleton_append, background_cons k rest ht, hk]
  | @goes s' a' k hs' ha' hk hslots hact =>
    have hread : ∀ rest, readDevice (t ([k] ++ rest)) blk = (deviceRead a'.device (a'.faults.headD false) blk a'.blkSz).map
        fun r => (r, { a' with sched := rest, faults := a'.faults.tail }) := by
      intro rest
      rw [readDevice, List.singleton_append, background_cons k rest ht, hk]
      simp only
      generalize deviceRead _ _ _ _ = w
      cases w with
      | error e => rfl
      | ok r => rfl
    have hB : a'.blkSz = B := by
      rw [settle_eq ha']
      exact hs'.blkSz
    have hfaults : a'.faults = s'.log.faults := by rw [settle_eq ha']
    rw [ok_bind, readNow, hs'.blkSz]
    by_cases hadm : a'.device.Admits blk B
    · have hmiss' : checkInWcache s'.log.wc blk = none := by
        rw [checkInWcache, hslots]
        exact hmiss
      have hok : deviceRead a'.device (s'.log.faults.headD false) blk B = .ok _ := if_pos hadm
      rw [settle_read hs' ha' hmiss' hadm, hok]
      have hs'' : Sound B ⟨{ s'.log with faults := s'.log.faults.tail }, s'.pending⟩ :=
        ⟨hs'.blkSz, hs'.block, hs'.tail, hs'.active, hs'.slots, hs'.pending⟩
      refine .answers [k] (fun sched => { a' with sched, faults := s'.log.faults.tail })
        ⟨hs'', _, settle_faults ha', fun _ => rfl⟩ fun rest => ?_
      rw [hread, hB, hfaults, hok, Except.map]
    · refine .stops [k] .assert rfl fun rest => ?_
      rw [hread, hB, deviceRead_error hadm, Except.map]

/-- Block `blk` is looked for with the writer behind: nothing is missed. -/
theorem fetch_delays {blk : Nat} (h : Settled B s t) :
    Delays B (serveDelayed (.fetch blk) s) fun script => serveQueue (.fetch blk) (t script) := by
  obtain ⟨hs, a, ha, ht⟩ := h
  have hserve : serveDelayed (.fetch blk) s = backgroundTicks s >>= fun s => fetchNow s blk := rfl
  have hqueue : ∀ script, serveQueue (.fetch blk) (t script) = fetch (t script) blk := fun _ => rfl
  rw [hserve]
  simp only [hqueue]
  have hticks := backgroundTicks_ticked hs ha (Nat.le_refl _)
  generalize backgroundTicks s = x at hticks ⊢
  cases hticks with
  | stops k hk =>
    refine .stops [k] .assert rfl fun rest => ?_
    rw [fetch, List.singleton_append, background_cons k rest ht, hk]
  | @goes s' a' k hs' ha' hk hslots hact =>
    have hwc : a'.wc = s'.log.wc := by rw [settle_eq ha']
    have hfetch : ∀ rest, fetch (t ([k] ++ rest)) blk = (checkInWcache s'.log.wc blk).elim
        (readDevice { a' with sched := rest } blk) fun buf => .ok (some buf, { a' with sched := rest }) := by
      intro rest
      rw [fetch, List.singleton_append, background_cons k rest ht, hk, ← hwc]
      simp only
      cases checkInWcache a'.wc blk with
      | some buf => rfl
      | none => rfl
    have hsettled : Settled B s' fun sched => { a' with sched } := ⟨hs', a', ha', fun _ => rfl⟩
    rw [ok_bind, fetchNow]
    cases hcheck : checkInWcache s'.log.wc blk with
    | some buf =>
      rw [hcheck] at hfetch
      exact .answers [k] _ hsettled hfetch
    | none =>
      rw [hcheck] at hfetch
      exact (read_delays hsettled hcheck).prepend [k] hfetch

/-- What the caller may put into the queue. -/
def PutFits (B : Nat) : QueueCall → Prop
  | .put b => b.buf.length = B
  | .fetch _ => True

theorem serveDelayed_matched (q : QueueCall) (hq : PutFits B q) (s : DelayedSt) (t : Scripted Nat LogfsSt) (h : Settled B s t) :
    Delays B (serveDelayed q s) fun script => serveQueue q (t script) := by
  cases q with
  | put b => exact put_delays h hq
  | fetch blk => exact fetch_delays h

end Cs238p.Logfs
