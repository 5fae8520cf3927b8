/-
  Cs238p.Logfs.Threads — the two threads of `project-4/logfs.c`: the caller, which runs
  `write_to_queue` and `check_in_wcache` any number of times and then perhaps
  `logfs_close`, and the background writer (`thread`, which runs `write_to_device`).

  A program counter names what its thread does next; every access to `done`, the counters,
  the mutex or a condition variable is a step. `pthread_cond_wait` is two: `block` gives
  the mutex back and goes to sleep in one, and a thread that was woken (`woken`) has to get
  the mutex again before it tests its condition once more. A signal wakes the one thread
  that can be asleep on its variable, if it is; a sleeper may also wake for no reason
  (`spurious`). Calls on the mutex and the variables succeed. `logfs_close` destroys them
  between its signals and the join; that is left out, and so is the device.

  Proved: the threads only ever do to the queue what `QueueStep` allows
  (`ThreadInv.queue`), and while the log is open no wake-up is lost (`no_wakeup_lost`): a
  sleeper has reason to sleep whenever the mutex is free, the two never sleep at once, and
  one can always go on.
-/
import Cs238p.Logfs.Queue

namespace Cs238p.Logfs

/-- What the caller does next. -/
inductive CallerPc where
  /-- Between two calls. -/
  | idle
  /-- `write_to_queue`: lock the mutex. -/
  | lock (b : Block)
  /-- `active_blks >= WCACHE_BLOCKS`. -/
  | test (b : Block)
  /-- `pthread_cond_wait` on `space`. -/
  | block (b : Block)
  | asleep (b : Block)
  /-- Woken, without the mutex. -/
  | woken (b : Block)
  /-- Fill the slot and count it. -/
  | put (b : Block)
  | signalItem
  | unlock
  /-- `check_in_wcache`: lock the mutex, then look through the slots. -/
  | lockSlots
  | look
  /-- `logfs_close`: `done = 1`. -/
  | setDone
  | closeItem
  | closeSpace
  | join
  | joined
  deriving DecidableEq

/-- What the background writer does next. -/
inductive WriterPc where
  /-- `!logfs->done` of `thread`. -/
  | loop
  /-- `write_to_device`: lock the mutex. -/
  | lock
  /-- `!done && active_blks <= 0`. -/
  | test
  /-- `pthread_cond_wait` on `item`. -/
  | block
  | asleep
  /-- Woken, without the mutex. -/
  | woken
  /-- The wait is over: `if (logfs->done)`. -/
  | checkDone
  /-- `write_to_device` returns because of `done`: unlock. -/
  | leave
  /-- Copy the tail slot and free it. -/
  | take
  | signalSpace
  | unlock
  /-- `device_write`, after the unlock. -/
  | write
  | exited
  deriving DecidableEq

inductive Thread where
  | caller
  | writer
  deriving DecidableEq

structure ThreadSt where
  wc : Wcache
  done : Bool
  mutex : Option Thread
  caller : CallerPc
  writer : WriterPc

/-- `logfs_open`; the writer has been created. -/
def threadsOpen (junk : Nat → List UInt8) : ThreadSt := ⟨wcacheOpen junk, false, none, .idle, .loop⟩

/-- `pthread_cond_signal` on `item`, on which only the writer waits. -/
def signalItem (w : WriterPc) : WriterPc := if w = .asleep then .woken else w

/-- `pthread_cond_signal` on `space`, on which only the caller waits. -/
def signalSpace : CallerPc → CallerPc
  | .asleep b => .woken b
  | c => c

inductive CallerStep : ThreadSt → ThreadSt → Prop
  | call {s : ThreadSt} (b : Block) : s.caller = .idle → CallerStep s { s with caller := .lock b }
  | lock {s : ThreadSt} {b : Block} : s.caller = .lock b → s.mutex = none →
      CallerStep s { s with mutex := some .caller, caller := .test b }
  | full {s : ThreadSt} {b : Block} : s.caller = .test b → s.wc.activeBlks ≥ 32 →
      CallerStep s { s with caller := .block b }
  | room {s : ThreadSt} {b : Block} : s.caller = .test b → ¬ s.wc.activeBlks ≥ 32 →
      CallerStep s { s with caller := .put b }
  | block {s : ThreadSt} {b : Block} : s.caller = .block b →
      CallerStep s { s with mutex := none, caller := .asleep b }
  | relock {s : ThreadSt} {b : Block} : s.caller = .woken b → s.mutex = none →
      CallerStep s { s with mutex := some .caller, caller := .test b }
  | put {s : ThreadSt} {b : Block} : s.caller = .put b →
      CallerStep s { s with wc := enqueue s.wc b, caller := .signalItem }
  | signalItem {s : ThreadSt} : s.caller = .signalItem →
      CallerStep s { s with writer := signalItem s.writer, caller := .unlock }
  | unlock {s : ThreadSt} : s.caller = .unlock → CallerStep s { s with mutex := none, caller := .idle }
  | check {s : ThreadSt} : s.caller = .idle → CallerStep s { s with caller := .lockSlots }
  | lockSlots {s : ThreadSt} : s.caller = .lockSlots → s.mutex = none →
      CallerStep s { s with mutex := some .caller, caller := .look }
  | look {s : ThreadSt} : s.caller = .look → CallerStep s { s with caller := .unlock }
  -- `logfs_close`, but for the destroys between its signals and the join. A writer that locks
  -- the mutex after them may end the process, so what is said of the join's return
  -- (`FairRun.calls_return`) is about a close without them; `wakes_unless_signalled_late` is
  -- about these steps only, and `close_loses_nothing_unless_queued` about closes that return.
  | close {s : ThreadSt} : s.caller = .idle → CallerStep s { s with caller := .setDone }
  | setDone {s : ThreadSt} : s.caller = .setDone → CallerStep s { s with done := true, caller := .closeItem }
  | closeItem {s : ThreadSt} : s.caller = .closeItem →
      CallerStep s { s with writer := signalItem s.writer, caller := .closeSpace }
  -- only the caller itself waits on `space`
  | closeSpace {s : ThreadSt} : s.caller = .closeSpace → CallerStep s { s with caller := .join }
  | join {s : ThreadSt} : s.caller = .join → s.writer = .exited → CallerStep s { s with caller := .joined }

inductive WriterStep : ThreadSt → ThreadSt → Prop
  | again {s : ThreadSt} : s.writer = .loop → s.done = false → WriterStep s { s with writer := .lock }
  | exit {s : ThreadSt} : s.writer = .loop → s.done = true → WriterStep s { s with writer := .exited }
  | lock {s : ThreadSt} : s.writer = .lock → s.mutex = none →
      WriterStep s { s with mutex := some .writer, writer := .test }
  | empty {s : ThreadSt} : s.writer = .test → s.done = false ∧ s.wc.activeBlks ≤ 0 →
      WriterStep s { s with writer := .block }
  | ended {s : ThreadSt} : s.writer = .test → ¬ (s.done = false ∧ s.wc.activeBlks ≤ 0) →
      WriterStep s { s with writer := .checkDone }
  | block {s : ThreadSt} : s.writer = .block → WriterStep s { s with mutex := none, writer := .asleep }
  | relock {s : ThreadSt} : s.writer = .woken → s.mutex = none →
      WriterStep s { s with mutex := some .writer, writer := .test }
  | isDone {s : ThreadSt} : s.writer = .checkDone → s.done = true → WriterStep s { s with writer := .leave }
  | notDone {s : ThreadSt} : s.writer = .checkDone → s.done = false → WriterStep s { s with writer := .take }
  | leave {s : ThreadSt} : s.writer = .leave → WriterStep s { s with mutex := none, writer := .loop }
  | take {s : ThreadSt} {b : Block} {wc : Wcache} : s.writer = .take → takeBlock s.wc = .ok (b, wc) →
      WriterStep s { s with wc, writer := .signalSpace }
  | signalSpace {s : ThreadSt} : s.writer = .signalSpace →
      WriterStep s { s with caller := signalSpace s.caller, writer := .unlock }
  | unlock {s : ThreadSt} : s.writer = .unlock → WriterStep s { s with mutex := none, writer := .write }
  | write {s : ThreadSt} : s.writer = .write → WriterStep s { s with writer := .loop }

/-- Waking up without a signal. -/
inductive Spurious : ThreadSt → ThreadSt → Prop
  | caller {s : ThreadSt} {b : Block} : s.caller = .asleep b → Spurious s { s with caller := .woken b }
  | writer {s : ThreadSt} : s.writer = .asleep → Spurious s { s with writer := .woken }

inductive ThreadStep (s s' : ThreadSt) : Prop
  | caller : CallerStep s s' → ThreadStep s s'
  | writer : WriterStep s s' → ThreadStep s s'
  | spurious : Spurious s s' → ThreadStep s s'

/-- The states of the runs whose steps all meet `ok`. -/
inductive ThreadReach (junk : Nat → List UInt8) (ok : ThreadSt → ThreadSt → Prop) : ThreadSt → Prop
  | start : ThreadReach junk ok (threadsOpen junk)
  | step {s s' : ThreadSt} : ThreadReach junk ok s → ok s s' → ThreadStep s s' → ThreadReach junk ok s'

def anyThreadStep : ThreadSt → ThreadSt → Prop := fun _ _ => True

/-! ## The mutex -/

/-- The caller has the mutex. -/
def CallerPc.holds : CallerPc → Bool
  | .test _ | .block _ | .put _ | .signalItem | .unlock | .look => true
  | _ => false

/-- The writer has the mutex. -/
def WriterPc.holds : WriterPc → Bool
  | .test | .block | .checkDone | .leave | .take | .signalSpace | .unlock => true
  | _ => false

structure Locked (s : ThreadSt) : Prop where
  caller : s.caller.holds = true ↔ s.mutex = some .caller
  writer : s.writer.holds = true ↔ s.mutex = some .writer

variable {junk : Nat → List UInt8} {ok : ThreadSt → ThreadSt → Prop} {s s' : ThreadSt}

@[simp] theorem holds_signalItem (w : WriterPc) : (signalItem w).holds = w.holds := by cases w <;> rfl

@[simp] theorem holds_signalSpace (c : CallerPc) : (signalSpace c).holds = c.holds := by cases c <;> rfl

theorem Locked.caller_step (h : Locked s) (hs : CallerStep s s') : Locked s' := by
  obtain ⟨hc, hw⟩ := h
  cases hs <;> constructor <;> simp_all [CallerPc.holds]

theorem Locked.writer_step (h : Locked s) (hs : WriterStep s s') : Locked s' := by
  obtain ⟨hc, hw⟩ := h
  cases hs <;> constructor <;> simp_all [WriterPc.holds]

theorem Locked.spurious (h : Locked s) (hs : Spurious s s') : Locked s' := by
  obtain ⟨hc, hw⟩ := h
  cases hs <;> constructor <;> simp_all [CallerPc.holds, WriterPc.holds]

/-- Only one of them has the mutex. -/
theorem Locked.not_both (h : Locked s) (hc : s.caller.holds = true) : ¬ s.writer.holds = true := by
  intro hw
  have h1 := h.caller.mp hc
  have h2 := h.writer.mp hw
  rw [h1] at h2
  cases h2

/-! ## What a program counter knows -/

/-- `logfs_close` has set `done`. -/
def CallerPc.closing : CallerPc → Bool
  | .closeItem | .closeSpace | .join | .joined => true
  | _ => false

/-- Whoever counts a block signals before it gives the mutex back. -/
def CallerOk (s : ThreadSt) : CallerPc → Prop
  | .put _ => s.wc.activeBlks < 32
  | .block _ | .asleep _ => s.wc.activeBlks = 32 ∨ s.writer = .signalSpace
  | _ => True

def WriterOk (s : ThreadSt) : WriterPc → Prop
  | .block | .asleep => s.wc.activeBlks = 0 ∨ s.caller = .signalItem
  | .checkDone => s.done = true ∨ s.wc.activeBlks ≠ 0
  | .take => s.wc.activeBlks ≠ 0
  | .exited => s.done = true
  | _ => True

structure ThreadInv (junk : Nat → List UInt8) (s : ThreadSt) : Prop where
  locked : Locked s
  queue : ∃ enqueued dequeued, QueueReach junk ⟨s.wc, enqueued, dequeued⟩
  done_eq : s.done = s.caller.closing
  caller : CallerOk s s.caller
  writer : WriterOk s s.writer

theorem ThreadInv.le (h : ThreadInv junk s) : s.wc.activeBlks ≤ 32 := by
  obtain ⟨e, d, hq⟩ := h.queue
  exact (queueInv hq).fifo.le

/-- A step of the caller that counts nothing and signals nothing. -/
theorem WriterOk.frame {w : WriterPc} (h : WriterOk s w) (hwc : s'.wc = s.wc) (hd : s.done = true → s'.done = true)
    (hc : s.caller ≠ .signalItem) : WriterOk s' w := by
  cases w <;> simp_all [WriterOk]
  exact h.imp_left hd

/-- A step of the writer that counts nothing and signals nothing. -/
theorem CallerOk.frame {c : CallerPc} (h : CallerOk s c) (hwc : s'.wc = s.wc) (hw : s.writer ≠ .signalSpace) :
    CallerOk s' c := by
  cases c <;> simp_all [CallerOk]

theorem WriterOk.signalled {w : WriterPc} (h : WriterOk s w) (hw : w.holds = false)
    (hd : s.done = true → s'.done = true) :
    WriterOk s' (signalItem w) := by
  cases w with
  | exited => exact hd h
  | asleep => trivial
  | block | checkDone | take => cases hw
  | _ => trivial

theorem ThreadInv.caller_step (h : ThreadInv junk s) (hs : CallerStep s s') : ThreadInv junk s' := by
  have hl := h.locked.caller_step hs
  have hle := h.le
  obtain ⟨hlock, hq, hd, hcaller, hwriter⟩ := h
  cases hs with
  | call _ hc | lock hc _ | relock hc _ | unlock hc | check hc | lockSlots hc _ | look hc | close hc | closeSpace hc
  | join hc _ =>
    exact ⟨hl, hq, by rw [hd, hc]; rfl, trivial, hwriter.frame rfl id (by simp [hc])⟩
  | full hc hfull =>
    exact ⟨hl, hq, by rw [hd, hc]; rfl, Or.inl (Nat.le_antisymm hle hfull), hwriter.frame rfl id (by simp [hc])⟩
  | room hc hroom =>
    exact ⟨hl, hq, by rw [hd, hc]; rfl, Nat.lt_of_not_le hroom, hwriter.frame rfl id (by simp [hc])⟩
  | block hc =>
    rw [hc] at hcaller
    exact ⟨hl, hq, by rw [hd, hc]; rfl, hcaller, hwriter.frame rfl id (by simp [hc])⟩
  | @put b hc =>
    obtain ⟨e, d, hq⟩ := hq
    have hroom : s.wc.activeBlks < 32 := by rw [hc] at hcaller; exact hcaller
    have hfree := hlock.not_both (by rw [hc]; rfl)
    refine ⟨hl, ⟨_, _, hq.step (.enqueue _ b (Nat.not_le.mpr hroom))⟩, by rw [hd, hc]; rfl, trivial, ?_⟩
    -- without the mutex the writer knows nothing of the count, or is asleep until the signal
    show WriterOk _ s.writer
    cases hw : s.writer with
    | asleep => exact Or.inr rfl
    | exited => rw [hw] at hwriter; exact hwriter
    | block | checkDone | take => rw [hw] at hfree; exact absurd rfl hfree
    | _ => trivial
  | signalItem hc =>
    have hfree := hlock.not_both (by rw [hc]; rfl)
    exact ⟨hl, hq, by rw [hd, hc]; rfl, trivial, hwriter.signalled (by simpa using hfree) id⟩
  | setDone hc => exact ⟨hl, hq, rfl, trivial, hwriter.frame rfl (fun _ => rfl) (by simp [hc])⟩
  | closeItem hc =>
    refine ⟨hl, hq, by rw [hd, hc]; rfl, trivial, ?_⟩
    rw [signalItem]
    split
    · trivial
    · exact hwriter.frame rfl id (by simp [hc])

theorem CallerOk.signalled {c : CallerPc} (h : CallerOk s c) (hc : c.holds = false) : CallerOk s' (signalSpace c) := by
  cases c with
  | put b | block b => cases hc
  | _ => trivial

@[simp] theorem closing_signalSpace (c : CallerPc) : (signalSpace c).closing = c.closing := by cases c <;> rfl

theorem ThreadInv.writer_step (h : ThreadInv junk s) (hs : WriterStep s s') : ThreadInv junk s' := by
  have hl := h.locked.writer_step hs
  obtain ⟨hlock, hq, hd, hcaller, hwriter⟩ := h
  cases hs with
  | again hw _ | lock hw _ | relock hw _ | isDone hw _ | leave hw | unlock hw | write hw =>
    exact ⟨hl, hq, hd, hcaller.frame rfl (by simp [hw]), trivial⟩
  | exit hw hdone => exact ⟨hl, hq, hd, hcaller.frame rfl (by simp [hw]), hdone⟩
  | empty hw he => exact ⟨hl, hq, hd, hcaller.frame rfl (by simp [hw]), Or.inl (Nat.le_zero.mp he.2)⟩
  | ended hw hended =>
    refine ⟨hl, hq, hd, hcaller.frame rfl (by simp [hw]), ?_⟩
    show s.done = true ∨ s.wc.activeBlks ≠ 0
    by_cases hdone : s.done = true
    · exact Or.inl hdone
    · exact Or.inr fun h0 => hended ⟨by simpa using hdone, by omega⟩
  | block hw =>
    rw [hw] at hwriter
    exact ⟨hl, hq, hd, hcaller.frame rfl (by simp [hw]), hwriter⟩
  | notDone hw hdone =>
    rw [hw] at hwriter
    refine ⟨hl, hq, hd, hcaller.frame rfl (by simp [hw]), ?_⟩
    exact hwriter.resolve_left (by simp [hdone])
  | @take b wc hw htake =>
    obtain ⟨e, d, hq⟩ := hq
    have hsome : s.wc.activeBlks ≠ 0 := by rw [hw] at hwriter; exact hwriter
    have hfree : s.caller.holds ≠ true := fun hc => hlock.not_both hc (by rw [hw]; rfl)
    refine ⟨hl, ⟨_, _, hq.step (.dequeue _ b wc (show ¬ s.wc.activeBlks ≤ 0 by omega) htake)⟩, hd, ?_, trivial⟩
    -- the caller sleeps at most, until the signal
    show CallerOk _ s.caller
    cases hc : s.caller with
    | asleep => exact Or.inr rfl
    | put | block => rw [hc] at hfree; exact absurd rfl hfree
    | _ => trivial
  | signalSpace hw =>
    have hfree : s.caller.holds ≠ true := fun hc => hlock.not_both hc (by rw [hw]; rfl)
    exact ⟨hl, hq, by simpa using hd, hcaller.signalled (by simpa using hfree), trivial⟩

theorem ThreadInv.spurious (h : ThreadInv junk s) (hs : Spurious s s') : ThreadInv junk s' := by
  have hl := h.locked.spurious hs
  obtain ⟨-, hq, hd, hcaller, hwriter⟩ := h
  cases hs with
  | caller hc => exact ⟨hl, hq, by rw [hd, hc]; rfl, trivial, hwriter.frame rfl id (by simp [hc])⟩
  | writer hw => exact ⟨hl, hq, hd, hcaller.frame rfl (by simp [hw]), trivial⟩

theorem ThreadInv.step (h : ThreadInv junk s) (hs : ThreadStep s s') : ThreadInv junk s' := by
  cases hs with
  | caller hs => exact h.caller_step hs
  | writer hs => exact h.writer_step hs
  | spurious hs => exact h.spurious hs

theorem threadInv_open (junk : Nat → List UInt8) : ThreadInv junk (threadsOpen junk) := by
  refine ⟨⟨?_, ?_⟩, ⟨[], [], .start⟩, rfl, trivial, trivial⟩
  · simp [threadsOpen, CallerPc.holds]
  · simp [threadsOpen, WriterPc.holds]

theorem threadInv (h : ThreadReach junk ok s) : ThreadInv junk s := by
  induction h with
  | start => exact threadInv_open junk
  | step _ _ hs ih => exact ih.step hs

/-! ## While the log is open -/

/-- Whoever has the mutex can go on. -/
theorem ThreadInv.holder_steps (h : ThreadInv junk s) (hm : s.mutex ≠ none) : ∃ s',
    CallerStep s s' ∨ WriterStep s s' := by
  cases hown : s.mutex with
  | none => exact absurd hown hm
  | some t =>
    cases t with
    | caller =>
      have hc := h.locked.caller.mpr hown
      cases hpc : s.caller with
      | test b =>
        by_cases hfull : s.wc.activeBlks ≥ 32
        · exact ⟨_, Or.inl (.full hpc hfull)⟩
        · exact ⟨_, Or.inl (.room hpc hfull)⟩
      | block b => exact ⟨_, Or.inl (.block hpc)⟩
      | put b => exact ⟨_, Or.inl (.put hpc)⟩
      | signalItem => exact ⟨_, Or.inl (.signalItem hpc)⟩
      | unlock => exact ⟨_, Or.inl (.unlock hpc)⟩
      | look => exact ⟨_, Or.inl (.look hpc)⟩
      | _ => rw [hpc] at hc; cases hc
    | writer =>
      have hw := h.locked.writer.mpr hown
      cases hpc : s.writer with
      | test =>
        by_cases he : s.done = false ∧ s.wc.activeBlks ≤ 0
        · exact ⟨_, Or.inr (.empty hpc he)⟩
        · exact ⟨_, Or.inr (.ended hpc he)⟩
      | block => exact ⟨_, Or.inr (.block hpc)⟩
      | checkDone =>
        by_cases hd : s.done = true
        · exact ⟨_, Or.inr (.isDone hpc hd)⟩
        · exact ⟨_, Or.inr (.notDone hpc (by simpa using hd))⟩
      | leave => exact ⟨_, Or.inr (.leave hpc)⟩
      | take =>
        have hok := h.writer
        rw [hpc] at hok
        exact ⟨_, Or.inr (.take hpc (takeBlock_ok hok))⟩
      | signalSpace => exact ⟨_, Or.inr (.signalSpace hpc)⟩
      | unlock => exact ⟨_, Or.inr (.unlock hpc)⟩
      | _ => rw [hpc] at hw; cases hw

/-- With the mutex free a caller that is not asleep can go on. -/
theorem ThreadInv.caller_steps (h : ThreadInv junk s) (hm : s.mutex = none) (hd : s.done = false)
    (hs : ∀ b, s.caller ≠ .asleep b) : ∃ s', CallerStep s s' := by
  have hfree : s.caller.holds ≠ true := fun hc => by rw [h.locked.caller.mp hc] at hm; cases hm
  have hopen := h.done_eq
  rw [hd] at hopen
  cases hpc : s.caller with
  | idle => exact ⟨_, .call ⟨0, []⟩ hpc⟩
  | lock b => exact ⟨_, .lock hpc hm⟩
  | woken b => exact ⟨_, .relock hpc hm⟩
  | lockSlots => exact ⟨_, .lockSlots hpc hm⟩
  | setDone => exact ⟨_, .setDone hpc⟩
  | asleep b => exact absurd hpc (hs b)
  | test | block | put | signalItem | unlock | look => rw [hpc] at hfree; exact absurd rfl hfree
  | closeItem | closeSpace | join | joined => rw [hpc] at hopen; cases hopen

/-- With the mutex free a writer that is not asleep can go on. -/
theorem ThreadInv.writer_steps (h : ThreadInv junk s) (hm : s.mutex = none) (hd : s.done = false)
    (hs : s.writer ≠ .asleep) : ∃ s', WriterStep s s' := by
  have hfree : s.writer.holds ≠ true := fun hw => by rw [h.locked.writer.mp hw] at hm; cases hm
  have hok := h.writer
  cases hpc : s.writer with
  | loop => exact ⟨_, .again hpc hd⟩
  | lock => exact ⟨_, .lock hpc hm⟩
  | woken => exact ⟨_, .relock hpc hm⟩
  | write => exact ⟨_, .write hpc⟩
  | asleep => exact absurd hpc hs
  | exited => rw [hpc] at hok; exact absurd (hd.symm.trans hok) (by decide)
  | test | block | checkDone | leave | take | signalSpace | unlock => rw [hpc] at hfree; exact absurd rfl hfree

/-- No wake-up is lost: with the mutex free a caller sleeps only on a full queue and a
    writer only on an empty one; they never sleep both; and while `done` is not set one of
    them can go on without waking up for no reason. -/
theorem no_wakeup_lost (h : ThreadReach junk ok s) :
    (s.mutex = none → (∀ b, s.caller = .asleep b → s.wc.activeBlks = 32) ∧
      (s.writer = .asleep → s.wc.activeBlks = 0)) ∧
    ¬ ((∃ b, s.caller = .asleep b) ∧ s.writer = .asleep) ∧
    (s.done = false → ∃ s', CallerStep s s' ∨ WriterStep s s') := by
  have hi := threadInv h
  have full : ∀ b, s.caller = .asleep b → s.writer ≠ .signalSpace → s.wc.activeBlks = 32 := by
    intro b hc hw
    have hok := hi.caller
    rw [hc] at hok
    exact hok.resolve_right hw
  have empty : s.writer = .asleep → s.caller ≠ .signalItem → s.wc.activeBlks = 0 := by
    intro hw hc
    have hok := hi.writer
    rw [hw] at hok
    exact hok.resolve_right hc
  have never_both : ¬ ((∃ b, s.caller = .asleep b) ∧ s.writer = .asleep) := by
    intro h
    obtain ⟨⟨b, hc⟩, hw⟩ := h
    have h32 := full b hc (by simp [hw])
    have h0 := empty hw (by simp [hc])
    omega
  refine ⟨fun hm => ⟨fun b hc => full b hc ?_, fun hw => empty hw ?_⟩, never_both, ?_⟩
  · intro hw
    rw [hi.locked.writer.mp (by rw [hw]; rfl)] at hm
    cases hm
  · intro hc
    rw [hi.locked.caller.mp (by rw [hc]; rfl)] at hm
    cases hm
  · intro hd
    by_cases hm : s.mutex = none
    · by_cases hw : s.writer = .asleep
      · obtain ⟨s', hs⟩ := hi.caller_steps hm hd fun b hc => never_both ⟨⟨b, hc⟩, hw⟩
        exact ⟨s', Or.inl hs⟩
      · obtain ⟨s', hs⟩ := hi.writer_steps hm hd hw
        exact ⟨s', Or.inr hs⟩
    · exact hi.holder_steps hm

/-- The writer finds the queue empty and falls asleep. -/
theorem writer_asleep (junk : Nat → List UInt8) (hok : ∀ s s', WriterStep s s' → ok s s') :
    ThreadReach junk ok { threadsOpen junk with writer := .asleep } := by
  have go : ∀ {s s'}, ThreadReach junk ok s → WriterStep s s' → ThreadReach junk ok s' :=
    fun h hs => h.step (hok _ _ hs) (.writer hs)
  have h1 := go .start (.again (s := threadsOpen junk) rfl rfl)
  have h2 := go h1 (.lock rfl rfl)
  have h3 := go h2 (.empty rfl ⟨rfl, Nat.le_refl 0⟩)
  exact go h3 (.block rfl)

theorem no_wakeup_lost_at_start : ∃ s : ThreadSt, s.writer = .asleep ∧ s.wc.activeBlks = 0 := by
  have h : ThreadReach (fun _ => []) anyThreadStep _ := writer_asleep _ fun _ _ _ => trivial
  exact ⟨_, rfl, ((no_wakeup_lost h).1 rfl).2 rfl⟩

end Cs238p.Logfs
