/-
  Cs238p.Logfs.Close — `logfs_close` against the background writer's wait.

  `logfs_close` sets `done` and signals `item` without the mutex. When both fall between
  the writer's test of its condition and its falling asleep, the signal finds no sleeper,
  the writer sleeps with `done` set, and the join waits forever (`a_writer_sleeps_on`).
  Proved: that is the only way (`wakes_unless_signalled_late`).
-/
import Mathlib.Logic.Relation
import Cs238p.Logfs.Threads

namespace Cs238p.Logfs

/-- The caller waits in `pthread_join`, its signals sent, for a writer that is asleep. -/
def Hung (s : ThreadSt) : Prop := s.caller = .join ∧ s.writer = .asleep

/-- `logfs_close` signals `item` after the writer's test and before it is asleep. -/
def Late (s s' : ThreadSt) : Prop := s.caller = .closeItem ∧ s'.caller = .closeSpace ∧ s.writer = .block

/-- `logfs_close` has signalled `item`. -/
def CallerPc.signalled : CallerPc → Bool
  | .closeSpace | .join | .joined => true
  | _ => false

/-- The writer will find `done` set before it can fall asleep. -/
def Awake (s : ThreadSt) : Prop := s.caller.signalled = true → s.writer ≠ .block ∧ s.writer ≠ .asleep

variable {junk : Nat → List UInt8} {s s' : ThreadSt}

theorem signalled_done (h : ThreadInv junk s) (hc : s.caller.signalled = true) : s.done = true := by
  rw [h.done_eq]
  cases hpc : s.caller with
  | closeSpace | join | joined => rfl
  | _ => rw [hpc] at hc; cases hc

theorem Awake.caller_step (h : Awake s) (hl : ¬ Late s s') (hs : CallerStep s s') : Awake s' := by
  intro hsig
  cases hs with
  | closeItem hc =>
    have hw : s.writer ≠ .block := fun hw => hl ⟨hc, rfl, hw⟩
    show signalItem s.writer ≠ .block ∧ signalItem s.writer ≠ .asleep
    rw [signalItem]
    split
    · exact ⟨by simp, by simp⟩
    · exact ⟨hw, ‹_›⟩
  | closeSpace hc => exact h (by rw [hc]; rfl)
  | join hc _ => exact h (by rw [hc]; rfl)
  | _ => cases hsig

theorem Awake.writer_step (h : Awake s) (hi : ThreadInv junk s) (hs : WriterStep s s') : Awake s' := by
  intro hsig
  cases hs with
  | empty hw he => exact absurd (signalled_done hi hsig) (by rw [he.1]; decide)
  | block hw => exact absurd hw (h hsig).1
  | _ => exact ⟨by simp, by simp⟩

theorem awake_of_spurious (hs : Spurious s s') : Awake s' := by
  intro hsig
  cases hs with
  | caller hc => cases hsig
  | writer hw => exact ⟨by simp, by simp⟩

theorem awake (h : ThreadReach junk (fun s s' => ¬ Late s s') s) : Awake s := by
  induction h with
  | start =>
    intro hsig
    cases hsig
  | step hr hl hs ih =>
    cases hs with
    | caller hs => exact ih.caller_step hl hs
    | writer hs => exact ih.writer_step (threadInv hr) hs
    | spurious hs => exact awake_of_spurious hs

/-- Steps that do not rely on waking up for no reason. -/
def Runs (s s' : ThreadSt) : Prop := CallerStep s s' ∨ WriterStep s s'

/-- A hung state is for ever: only waking up for no reason leads out of it. -/
theorem Hung.stays (h : Hung s) (hs : Runs s s') : False := by
  obtain ⟨hc, hw⟩ := h
  rcases hs with hs | hs
  · cases hs <;> simp_all
  · cases hs <;> simp_all

/-- After a late signal the writer falls asleep, and the caller goes on to the join. -/
theorem hung_of_late (hs : CallerStep s s') (hl : Late s s') : ∃ t, Relation.ReflTransGen Runs s' t ∧ Hung t := by
  obtain ⟨hc, -, hw⟩ := hl
  cases hs with
  | closeItem =>
    have h1 : Runs { s with writer := signalItem s.writer, caller := .closeSpace } _ :=
      Or.inl (.closeSpace rfl)
    have h2 : Runs { s with writer := signalItem s.writer, caller := .join } _ :=
      Or.inr (.block (by rw [hw]; rfl))
    exact ⟨_, .tail (.single h1) h2, rfl, rfl⟩
  | _ => simp_all

/-- In a run whose signals of `item` are never late the join never waits for a sleeper;
    after a late one it comes to that, without waking up for no reason. -/
theorem wakes_unless_signalled_late (junk : Nat → List UInt8) :
    (∀ s, ThreadReach junk (fun s s' => ¬ Late s s') s → ¬ Hung s) ∧
    (∀ s s', ThreadReach junk anyThreadStep s → CallerStep s s' → Late s s' →
      ∃ t, Relation.ReflTransGen Runs s' t ∧ Hung t) := by
  refine ⟨?_, fun s s' _ hs hl => hung_of_late hs hl⟩
  intro s h hh
  exact (awake h (by rw [hh.1]; rfl)).2 hh.2

/-- The log is closed while the writer is asleep: it wakes up. -/
theorem wakes_unless_signalled_late_asleep :
    ∃ s, ThreadReach (fun _ => []) (fun s s' => ¬ Late s s') s ∧ s.caller = .join ∧ ¬ Hung s := by
  have go : ∀ {s s'}, ThreadReach (fun _ => []) (fun s s' => ¬ Late s s') s → ¬ Late s s' → CallerStep s s' →
      ThreadReach (fun _ => []) (fun s s' => ¬ Late s s') s' := fun h hl hs => h.step hl (.caller hs)
  have h0 := @writer_asleep (fun s s' => ¬ Late s s') (fun _ => []) fun s s' hs hl => by
    have hc := hl.1
    have hc' := hl.2.1
    cases hs <;> simp_all [signalSpace]
  have h1 := go h0 (by simp [Late, threadsOpen]) (.close rfl)
  have h2 := go h1 (by simp [Late]) (.setDone rfl)
  have h3 := go h2 (by simp [Late]) (.closeItem rfl)
  have h4 := go h3 (by simp [Late]) (.closeSpace rfl)
  exact ⟨_, h4, rfl, (wakes_unless_signalled_late _).1 _ h4⟩

/-- The writer has found the queue empty; before it is asleep the log is closed. -/
theorem a_writer_sleeps_on : ¬ ∀ s, ThreadReach (fun _ => []) anyThreadStep s → ¬ Hung s := by
  intro hall
  have writer : ∀ {s s'}, ThreadReach (fun _ => []) anyThreadStep s → WriterStep s s' →
      ThreadReach (fun _ => []) anyThreadStep s' := fun h hs => h.step trivial (.writer hs)
  have caller : ∀ {s s'}, ThreadReach (fun _ => []) anyThreadStep s → CallerStep s s' →
      ThreadReach (fun _ => []) anyThreadStep s' := fun h hs => h.step trivial (.caller hs)
  have h1 := writer .start (.again (s := threadsOpen fun _ => []) rfl rfl)
  have h2 := writer h1 (.lock rfl rfl)
  have h3 := writer h2 (.empty rfl ⟨rfl, Nat.le_refl 0⟩)
  have h4 := caller h3 (.close rfl)
  have h5 := caller h4 (.setDone rfl)
  have h6 := caller h5 (.closeItem rfl)
  have h7 := caller h6 (.closeSpace rfl)
  have h8 := writer h7 (.block rfl)
  exact hall _ h8 ⟨rfl, rfl⟩

end Cs238p.Logfs
