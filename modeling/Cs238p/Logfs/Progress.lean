/-
  Cs238p.Logfs.Progress — what the two threads of `project-4/logfs.c` get done.

  A fair run is infinite: at each time a thread makes a step, wakes up for no reason, or
  nothing happens. A thread that can go on again and again does so again and again; the
  caller between two calls does nothing that it must. A device write takes one step.

  Proved: the mutex is free again and again (`FairRun.mutex_free`), and so every call of
  `write_to_queue` fills a slot and returns, every call of `check_in_wcache` returns, and
  `logfs_close` returns unless it signals late (`FairRun.calls_return`); and unless `done`
  is set the writer gets through with every block that is put (`FairRun.all_through`).
-/
import Cs238p.Lib.Fairness
import Cs238p.Logfs.Close

namespace Cs238p.Logfs

open Fairness

/-- A step inside a call. -/
def GoesOn (s s' : ThreadSt) : Prop := CallerStep s s' ∧ s.caller ≠ .idle

/-- Nothing happens, or a thread wakes up for no reason. -/
def Quiet (s s' : ThreadSt) : Prop := s' = s ∨ Spurious s s'

structure FairRun (junk : Nat → List UInt8) where
  st : Nat → ThreadSt
  start : st 0 = threadsOpen junk
  next : ∀ i, CallerStep (st i) (st (i + 1)) ∨ WriterStep (st i) (st (i + 1)) ∨ Quiet (st i) (st (i + 1))
  callerFair : StronglyFair (fun i => ∃ s', GoesOn (st i) s') fun i => GoesOn (st i) (st (i + 1))
  writerFair : StronglyFair (fun i => ∃ s', WriterStep (st i) s') fun i => WriterStep (st i) (st (i + 1))

variable {junk : Nat → List UInt8} {s s' : ThreadSt} {b : Block}

theorem FairRun.inv (r : FairRun junk) (i : Nat) : ThreadInv junk (r.st i) := by
  induction i with
  | zero =>
    rw [r.start]
    exact threadInv_open junk
  | succ i ih =>
    rcases r.next i with hs | hs | hs | hs
    · exact ih.caller_step hs
    · exact ih.writer_step hs
    · rw [hs]
      exact ih
    · exact ih.spurious hs

/-! ## Who can go on -/

/-- The writer goes on when it has the mutex, or needs no more than to get it. -/
theorem ThreadInv.writer_goes_on (h : ThreadInv junk s) (hm : s.mutex = none ∨ s.writer.holds = true) (hs : s.writer ≠ .asleep)
    (he : s.writer ≠ .exited) : ∃ s', WriterStep s s' := by
  have hok := h.writer
  have hfree : s.writer.holds = false → s.mutex = none := fun hno => hm.resolve_right (by rw [hno]; decide)
  cases hpc : s.writer with
  | loop =>
    cases hd : s.done with
    | true => exact ⟨_, .exit hpc hd⟩
    | false => exact ⟨_, .again hpc hd⟩
  | lock => exact ⟨_, .lock hpc (hfree (by rw [hpc]; rfl))⟩
  | test =>
    by_cases hempty : s.done = false ∧ s.wc.activeBlks ≤ 0
    · exact ⟨_, .empty hpc hempty⟩
    · exact ⟨_, .ended hpc hempty⟩
  | block => exact ⟨_, .block hpc⟩
  | asleep => exact absurd hpc hs
  | woken => exact ⟨_, .relock hpc (hfree (by rw [hpc]; rfl))⟩
  | checkDone =>
    cases hd : s.done with
    | true => exact ⟨_, .isDone hpc hd⟩
    | false => exact ⟨_, .notDone hpc hd⟩
  | leave => exact ⟨_, .leave hpc⟩
  | take =>
    rw [hpc] at hok
    exact ⟨_, .take hpc (takeBlock_ok hok)⟩
  | signalSpace => exact ⟨_, .signalSpace hpc⟩
  | unlock => exact ⟨_, .unlock hpc⟩
  | write => exact ⟨_, .write hpc⟩
  | exited => exact absurd hpc he

/-- The caller goes on when it has the mutex, or needs no more than to get it. -/
theorem caller_goes_on (hm : s.mutex = none ∨ s.caller.holds = true) (hi : s.caller ≠ .idle) (ha : ∀ b, s.caller ≠ .asleep b)
    (hj : s.caller = .join → s.writer = .exited) (hd : s.caller ≠ .joined) : ∃ s', GoesOn s s' := by
  have hfree : s.caller.holds = false → s.mutex = none := fun hno => hm.resolve_right (by rw [hno]; decide)
  have go : ∀ {s'}, CallerStep s s' → ∃ s', GoesOn s s' := fun hs => ⟨_, hs, hi⟩
  cases hpc : s.caller with
  | idle => exact absurd hpc hi
  | lock b => exact go (.lock hpc (hfree (by rw [hpc]; rfl)))
  | test b =>
    by_cases hfull : s.wc.activeBlks ≥ 32
    · exact go (.full hpc hfull)
    · exact go (.room hpc hfull)
  | block b => exact go (.block hpc)
  | asleep b => exact absurd hpc (ha b)
  | woken b => exact go (.relock hpc (hfree (by rw [hpc]; rfl)))
  | put b => exact go (.put hpc)
  | signalItem => exact go (.signalItem hpc)
  | unlock => exact go (.unlock hpc)
  | lockSlots => exact go (.lockSlots hpc (hfree (by rw [hpc]; rfl)))
  | look => exact go (.look hpc)
  | setDone => exact go (.setDone hpc)
  | closeItem => exact go (.closeItem hpc)
  | closeSpace => exact go (.closeSpace hpc)
  | join => exact go (.join hpc (hj hpc))
  | joined => exact absurd hpc hd

/-- What the caller's steps and the quiet ones do to the writer. -/
theorem writer_kept (hs : CallerStep s s' ∨ Quiet s s') (ha : s.writer ≠ .asleep) : s'.writer = s.writer := by
  rcases hs with hs | hs | hs
  · cases hs with
    | signalItem _ | closeItem _ => exact if_neg ha
    | _ => rfl
  · rw [hs]
  · cases hs with
    | caller _ => rfl
    | writer hw => exact absurd hw ha

/-- What the writer's steps and the quiet ones do to the caller. -/
theorem caller_kept (hs : WriterStep s s' ∨ Quiet s s') (ha : ∀ b, s.caller ≠ .asleep b) : s'.caller = s.caller := by
  rcases hs with hs | hs | hs
  · cases hs with
    | signalSpace _ =>
      show signalSpace s.caller = s.caller
      cases hc : s.caller with
      | asleep b => exact absurd hc (ha b)
      | _ => rfl
    | _ => rfl
  · rw [hs]
  · cases hs with
    | caller hc => exact absurd hc (ha _)
    | writer _ => rfl

/-! ## The mutex -/

/-- Steps of the writer until it gives the mutex back. -/
def WriterPc.toRelease : WriterPc → Nat
  | .test => 5
  | .checkDone => 4
  | .take => 3
  | .signalSpace => 2
  | _ => 1

theorem WriterStep.releases (hs : WriterStep s s') (hh : s.writer.holds = true) :
    (s'.writer.holds = true ∧ s'.writer.toRelease < s.writer.toRelease) ∨ s'.mutex = none := by
  cases hs <;> simp_all [WriterPc.holds, WriterPc.toRelease]

theorem holds_awake {w : WriterPc} (h : w.holds = true) : w ≠ .asleep ∧ w ≠ .exited := by
  cases w with
  | asleep | exited => cases h
  | _ => exact ⟨by simp, by simp⟩

/-- Steps of the caller until it gives the mutex back. -/
def CallerPc.toRelease : CallerPc → Nat
  | .test _ => 4
  | .put _ => 3
  | .signalItem | .look => 2
  | _ => 1

theorem CallerStep.releases (hs : CallerStep s s') (hh : s.caller.holds = true) :
    (s'.caller.holds = true ∧ s'.caller.toRelease < s.caller.toRelease) ∨ s'.mutex = none := by
  cases hs <;> simp_all [CallerPc.holds, CallerPc.toRelease]

namespace FairRun

variable (r : FairRun junk)

/-- The writer's steps lower a measure that no other step raises. -/
theorem by_writer {P Q : Nat → Prop} (measure : Nat → Nat)
    (hother : ∀ i, P i → CallerStep (r.st i) (r.st (i + 1)) ∨ Quiet (r.st i) (r.st (i + 1)) →
      (P (i + 1) ∧ measure (i + 1) ≤ measure i) ∨ Q (i + 1))
    (hwriter : ∀ i, P i → WriterStep (r.st i) (r.st (i + 1)) → (P (i + 1) ∧ measure (i + 1) < measure i) ∨ Q (i + 1))
    (hen : LeadsTo P fun j => (∃ s', WriterStep (r.st j) s') ∨ Q j) : LeadsTo P Q := by
  refine .descend measure r.writerFair ?_ hwriter hen
  intro i hi
  rcases r.next i with hs | hs | hs
  · exact hother i hi (Or.inl hs)
  · exact (hwriter i hi hs).imp_left fun h => ⟨h.1, h.2.le⟩
  · exact hother i hi (Or.inr hs)

/-- The caller's steps lower a measure that no other step raises. -/
theorem by_caller {P Q : Nat → Prop} (measure : Nat → Nat)
    (hother : ∀ i, P i → WriterStep (r.st i) (r.st (i + 1)) ∨ Quiet (r.st i) (r.st (i + 1)) →
      (P (i + 1) ∧ measure (i + 1) ≤ measure i) ∨ Q (i + 1))
    (hcaller : ∀ i, P i → CallerStep (r.st i) (r.st (i + 1)) → (P (i + 1) ∧ measure (i + 1) < measure i) ∨ Q (i + 1))
    (hen : LeadsTo P fun j => (∃ s', GoesOn (r.st j) s') ∨ Q j) : LeadsTo P Q := by
  refine .descend measure r.callerFair ?_ (fun i hi hs => hcaller i hi hs.1) hen
  intro i hi
  rcases r.next i with hs | hs | hs
  · exact (hcaller i hi hs).imp_left fun h => ⟨h.1, h.2.le⟩
  · exact hother i hi (Or.inl hs)
  · exact hother i hi (Or.inr hs)

theorem writer_releases : LeadsTo (fun i => (r.st i).writer.holds = true) fun i => (r.st i).mutex = none := by
  refine r.by_writer (fun i => (r.st i).writer.toRelease) ?_ (fun i hh hs => hs.releases hh) (.of_imp ?_)
  · intro i hh hs
    have hkept := writer_kept hs (holds_awake hh).1
    exact Or.inl ⟨by rw [hkept]; exact hh, by rw [hkept]⟩
  · intro i hh
    exact Or.inl ((r.inv i).writer_goes_on (Or.inr hh) (holds_awake hh).1 (holds_awake hh).2)

theorem caller_releases : LeadsTo (fun i => (r.st i).caller.holds = true) fun i => (r.st i).mutex = none := by
  have awake : ∀ i, (r.st i).caller.holds = true → ∀ b, (r.st i).caller ≠ .asleep b := by
    intro i hh b hc
    rw [hc] at hh
    cases hh
  refine r.by_caller (fun i => (r.st i).caller.toRelease) ?_ (fun i hh hs => hs.releases hh) (.of_imp ?_)
  · intro i hh hs
    have hkept := caller_kept hs (awake i hh)
    exact Or.inl ⟨by rw [hkept]; exact hh, by rw [hkept]⟩
  · intro i hh
    have hpc : ∀ c : CallerPc, c.holds = false → (r.st i).caller ≠ c := fun c hc he => by
      rw [he, hc] at hh
      cases hh
    exact Or.inl (caller_goes_on (Or.inr hh) (hpc _ rfl) (awake i hh) (fun he => absurd he (hpc _ rfl)) (hpc _ rfl))

/-- The mutex is free again and again. -/
theorem mutex_free : Often fun i => (r.st i).mutex = none := by
  refine .of_leadsTo (r.caller_releases.or r.writer_releases) fun i => ?_
  cases hm : (r.st i).mutex with
  | none => exact Or.inr rfl
  | some t =>
    cases t with
    | caller => exact Or.inl (Or.inl ((r.inv i).locked.caller.mpr hm))
    | writer => exact Or.inl (Or.inr ((r.inv i).locked.writer.mpr hm))

/-- `by_writer`, where the writer needs the mutex at most. -/
theorem by_writer_free {P Q : Nat → Prop} (measure : Nat → Nat)
    (hother : ∀ i, P i → CallerStep (r.st i) (r.st (i + 1)) ∨ Quiet (r.st i) (r.st (i + 1)) →
      (P (i + 1) ∧ measure (i + 1) ≤ measure i) ∨ Q (i + 1))
    (hwriter : ∀ i, P i → WriterStep (r.st i) (r.st (i + 1)) → (P (i + 1) ∧ measure (i + 1) < measure i) ∨ Q (i + 1))
    (hen : ∀ i, P i → (r.st i).mutex = none → ∃ s', WriterStep (r.st i) s') : LeadsTo P Q := by
  refine r.by_writer measure hother hwriter ((LeadsTo.meets (Q := Q) ?_ r.mutex_free).mono ?_)
  · intro i hi
    rcases r.next i with hs | hs | hs
    · exact (hother i hi (Or.inl hs)).imp_left And.left
    · exact (hwriter i hi hs).imp_left And.left
    · exact (hother i hi (Or.inr hs)).imp_left And.left
  · intro i hi
    exact hi.imp_left fun h => hen i h.1 h.2

/-- `by_caller`, where the caller needs the mutex at most. -/
theorem by_caller_free {P Q : Nat → Prop} (measure : Nat → Nat)
    (hother : ∀ i, P i → WriterStep (r.st i) (r.st (i + 1)) ∨ Quiet (r.st i) (r.st (i + 1)) →
      (P (i + 1) ∧ measure (i + 1) ≤ measure i) ∨ Q (i + 1))
    (hcaller : ∀ i, P i → CallerStep (r.st i) (r.st (i + 1)) → (P (i + 1) ∧ measure (i + 1) < measure i) ∨ Q (i + 1))
    (hen : ∀ i, P i → (r.st i).mutex = none → ∃ s', GoesOn (r.st i) s') : LeadsTo P Q := by
  refine r.by_caller measure hother hcaller ((LeadsTo.meets (Q := Q) ?_ r.mutex_free).mono ?_)
  · intro i hi
    rcases r.next i with hs | hs | hs
    · exact (hcaller i hi hs).imp_left And.left
    · exact (hother i hi (Or.inl hs)).imp_left And.left
    · exact (hother i hi (Or.inr hs)).imp_left And.left
  · intro i hi
    exact hi.imp_left fun h => hen i h.1 h.2

end FairRun

/-! ## A call of `write_to_queue` -/

/-- The block of a call that has not filled its slot. -/
def CallerPc.waiting : CallerPc → Option Block
  | .lock b | .test b | .block b | .asleep b | .woken b => some b
  | _ => none

@[simp] theorem waiting_signalSpace (c : CallerPc) : (signalSpace c).waiting = c.waiting := by cases c <;> rfl

/-- Until then it waits. -/
theorem CallerStep.waits (hs : CallerStep s s') (hw : s.caller.waiting = some b) :
    s'.wc = s.wc ∧ s'.writer = s.writer ∧ (s'.caller.waiting = some b ∨ (s'.caller = .put b ∧ s.wc.activeBlks < 32)) := by
  cases hs <;> simp_all [CallerPc.waiting]

theorem WriterStep.waiting_eq (hs : WriterStep s s') : s'.caller.waiting = s.caller.waiting := by
  cases hs <;> simp

theorem Quiet.waiting_eq (hs : Quiet s s') : s'.wc = s.wc ∧ s'.caller.waiting = s.caller.waiting := by
  rcases hs with rfl | hs
  · exact ⟨rfl, rfl⟩
  · cases hs with
    | caller hc => exact ⟨rfl, by rw [hc]; rfl⟩
    | writer _ => exact ⟨rfl, rfl⟩

/-- Steps of the writer until it takes a block, when there is one. -/
def WriterPc.toTake : WriterPc → Nat
  | .take => 0
  | .checkDone => 1
  | .test => 2
  | .lock | .woken => 3
  | .loop => 4
  | .write | .leave => 5
  | .unlock => 6
  | _ => 7

/-- The writer is on its way to a block. -/
def WriterPc.Ready (w : WriterPc) : Prop := w ≠ .asleep ∧ w ≠ .block ∧ w ≠ .exited

/-- A call on a full ring. -/
def Stuck (b : Block) (s : ThreadSt) : Prop := s.caller.waiting = some b ∧ s.wc.activeBlks = 32

/-- A call that a slot is free for. -/
def HasRoom (b : Block) (s : ThreadSt) : Prop := s.caller.waiting = some b ∧ s.wc.activeBlks < 32

theorem WriterStep.approaches (hs : WriterStep s s') (hd : s.done = false) (h0 : s.wc.activeBlks ≠ 0) (hr : s.writer.Ready) :
    s'.writer.Ready ∧ ((s'.wc = s.wc ∧ s'.writer.toTake < s.writer.toTake) ∨
      (s.writer = .take ∧ s'.wc = (dequeue s.wc).2 ∧ s'.writer = .signalSpace)) := by
  obtain ⟨h1, h2, h3⟩ := hr
  cases hs with
  | take hpc htake =>
    rw [takeBlock_ok h0] at htake
    cases htake
    exact ⟨⟨by simp, by simp, by simp⟩, Or.inr ⟨hpc, rfl, rfl⟩⟩
  | _ => simp_all [WriterPc.Ready, WriterPc.toTake]

theorem ThreadInv.open_of_waiting (h : ThreadInv junk s) (hw : s.caller.waiting = some b) : s.done = false := by
  rw [h.done_eq]
  cases hpc : s.caller with
  | closeItem | closeSpace | join | joined => rw [hpc] at hw; cases hw
  | _ => rfl

theorem ThreadInv.ready_of_stuck (h : ThreadInv junk s) (hw : Stuck b s) : s.done = false ∧ s.writer.Ready := by
  obtain ⟨hw, hfull⟩ := hw
  have hd := h.open_of_waiting hw
  have hno : ¬ (s.wc.activeBlks = 0 ∨ s.caller = .signalItem) := by
    rintro (h0 | hc)
    · omega
    · rw [hc] at hw
      cases hw
  have hok := h.writer
  refine ⟨hd, ?_, ?_, ?_⟩
  · intro hpc
    rw [hpc] at hok
    exact hno hok
  · intro hpc
    rw [hpc] at hok
    exact hno hok
  · intro hpc
    rw [hpc] at hok
    exact absurd (hd.symm.trans hok) (by decide)

namespace FairRun

variable (r : FairRun junk)

/-- The writer frees a slot of a full ring. -/
theorem gets_room (b : Block) : LeadsTo (fun i => (r.st i).caller.waiting = some b) fun i => HasRoom b (r.st i) := by
  have hstuck : LeadsTo (fun i => Stuck b (r.st i)) fun i => HasRoom b (r.st i) := by
    refine r.by_writer_free (fun i => (r.st i).writer.toTake) ?_ ?_ ?_
    · intro i hi hs
      have hkept := writer_kept hs ((r.inv i).ready_of_stuck hi).2.1
      obtain ⟨hw, h32⟩ := hi
      rcases hs with hs | hs
      · obtain ⟨hwc, -, hw' | ⟨-, hlt⟩⟩ := hs.waits hw
        · exact Or.inl ⟨⟨hw', by rw [hwc, h32]⟩, by rw [hkept]⟩
        · omega
      · obtain ⟨hwc, hw'⟩ := hs.waiting_eq
        exact Or.inl ⟨⟨by rw [hw', hw], by rw [hwc, h32]⟩, by rw [hkept]⟩
    · intro i hi hs
      obtain ⟨hd, hready⟩ := (r.inv i).ready_of_stuck hi
      obtain ⟨hw, h32⟩ := hi
      have hw' := hs.waiting_eq.trans hw
      rcases (hs.approaches hd (by omega) hready).2 with ⟨hwc, hlt⟩ | ⟨-, hwc, -⟩
      · exact Or.inl ⟨⟨hw', by rw [hwc, h32]⟩, hlt⟩
      · refine Or.inr ⟨hw', ?_⟩
        rw [hwc]
        simp only [dequeue, h32]
        decide
    · intro i hi hm
      have hready := ((r.inv i).ready_of_stuck hi).2
      exact (r.inv i).writer_goes_on (Or.inl hm) hready.1 hready.2.2
  intro i hw
  rcases Nat.lt_or_eq_of_le (r.inv i).le with hlt | h32
  · exact ⟨i, Nat.le_refl i, hw, hlt⟩
  · exact hstuck i ⟨hw, h32⟩

end FairRun

theorem WriterStep.active_le (hs : WriterStep s s') (hle : s.wc.activeBlks ≤ 32) : s'.wc.activeBlks ≤ s.wc.activeBlks := by
  cases hs with
  | @take b wc _ htake =>
    unfold takeBlock at htake
    split at htake
    · cases htake
    · cases htake
      simp only [dequeue]
      omega
  | _ => exact Nat.le_refl _

/-- With the signal outstanding the writer does not sleep in its lock. -/
theorem ThreadInv.not_block (h : ThreadInv junk s) (hlt : s.wc.activeBlks < 32) : s.caller ≠ .block b := by
  intro hc
  have hok := h.caller
  rw [hc] at hok
  have hw : s.writer = .signalSpace := hok.resolve_left (by omega)
  exact h.locked.not_both (by rw [hc]; rfl) (by rw [hw]; rfl)

/-- Steps of a call until it fills its slot, when there is one. -/
def CallerPc.toPut : CallerPc → Nat
  | .test _ => 1
  | _ => 2

theorem CallerStep.fills (hs : CallerStep s s') (hw : s.caller.waiting = some b) (hlt : s.wc.activeBlks < 32)
    (hb : s.caller ≠ .block b) :
    (s'.wc = s.wc ∧ s'.caller = .test b ∧ s'.caller.toPut < s.caller.toPut) ∨ s'.caller = .put b := by
  cases hs with
  | full _ hfull => omega
  | _ => simp_all [CallerPc.waiting, CallerPc.toPut]

/-- The caller has let a call do its work. -/
def CallerPc.returning : CallerPc → Bool
  | .signalItem | .unlock | .look => true
  | _ => false

theorem CallerStep.returns (hs : CallerStep s s') (hr : s.caller.returning = true) :
    (s'.caller.returning = true ∧ s'.caller.toRelease < s.caller.toRelease) ∨ s'.caller = .idle := by
  cases hs <;> simp_all [CallerPc.returning, CallerPc.toRelease]

namespace FairRun

variable (r : FairRun junk)

/-- At this time the slot of the call is filled. -/
def Fills (b : Block) (i : Nat) : Prop :=
  (r.st i).caller = .put b ∧ (r.st (i + 1)).caller = .signalItem ∧ (r.st (i + 1)).wc = enqueue (r.st i).wc b

theorem wakes (b : Block) : LeadsTo (fun i => HasRoom b (r.st i)) fun i => HasRoom b (r.st i) ∧ ∀ c, (r.st i).caller ≠ .asleep c := by
  have hasleep : LeadsTo (fun i => (r.st i).caller = .asleep b ∧ (r.st i).wc.activeBlks < 32)
      fun i => HasRoom b (r.st i) ∧ ∀ c, (r.st i).caller ≠ .asleep c := by
    have hsignal : ∀ i, (r.st i).caller = .asleep b ∧ (r.st i).wc.activeBlks < 32 → (r.st i).writer = .signalSpace := by
      rintro i ⟨hc, hlt⟩
      have hok := (r.inv i).caller
      rw [hc] at hok
      exact hok.resolve_left (by omega)
    have woken : ∀ {s' : ThreadSt}, s'.caller = .woken b → s'.wc.activeBlks < 32 →
        HasRoom b s' ∧ ∀ c, s'.caller ≠ .asleep c := by
      intro s' hc hlt
      refine ⟨⟨by rw [hc]; rfl, hlt⟩, fun c he => ?_⟩
      rw [hc] at he
      cases he
    refine r.by_writer (fun _ => 0) ?_ ?_ (.of_imp fun i hi => Or.inl ⟨_, .signalSpace (hsignal i hi)⟩)
    · intro i hi hs
      obtain ⟨hc, hlt⟩ := hi
      generalize r.st (i + 1) = s' at hs ⊢
      rcases hs with hs | hs | hs
      · cases hs <;> simp_all
      · rw [hs]
        exact Or.inl ⟨⟨hc, hlt⟩, Nat.le_refl _⟩
      · cases hs with
        | caller hc' =>
          rw [hc] at hc'
          cases hc'
          exact Or.inr (woken rfl hlt)
        | writer _ => exact Or.inl ⟨⟨hc, hlt⟩, Nat.le_refl _⟩
    · intro i hi hs
      have hw := hsignal i hi
      obtain ⟨hc, hlt⟩ := hi
      have hle := hs.active_le (r.inv i).le
      refine Or.inr (woken ?_ (by omega))
      generalize r.st (i + 1) = s' at hs ⊢
      cases hs with
      | signalSpace _ =>
        show signalSpace (r.st i).caller = _
        rw [hc]
        rfl
      | _ => simp_all
  intro i hi
  by_cases ha : ∃ c, (r.st i).caller = .asleep c
  · obtain ⟨c, hc⟩ := ha
    have hw := hi.1
    rw [hc] at hw
    cases hw
    exact hasleep i ⟨hc, hi.2⟩
  · exact ⟨i, Nat.le_refl i, hi, fun c hc => ha ⟨c, hc⟩⟩

theorem puts (b : Block) : LeadsTo (fun i => HasRoom b (r.st i)) fun i => (r.st i).caller = .put b := by
  refine (r.wakes b).trans (r.by_caller_free (fun i => (r.st i).caller.toPut) ?_ ?_ ?_)
  · intro i hi hs
    obtain ⟨⟨hw, hlt⟩, ha⟩ := hi
    have hkept := caller_kept hs ha
    have hle : (r.st (i + 1)).wc.activeBlks ≤ (r.st i).wc.activeBlks := by
      rcases hs with hs | hs
      · exact hs.active_le (r.inv i).le
      · rw [hs.waiting_eq.1]
    refine Or.inl ⟨⟨⟨by rw [hkept, hw], by omega⟩, fun c => by rw [hkept]; exact ha c⟩, by rw [hkept]⟩
  · intro i hi hs
    obtain ⟨⟨hw, hlt⟩, -⟩ := hi
    rcases hs.fills hw hlt ((r.inv i).not_block hlt) with ⟨hwc, hc, hless⟩ | hput
    · refine Or.inl ⟨⟨⟨by rw [hc]; rfl, by rw [hwc]; exact hlt⟩, fun c he => ?_⟩, hless⟩
      rw [hc] at he
      cases he
    · exact Or.inr hput
  · intro i hi hm
    obtain ⟨⟨hw, -⟩, ha⟩ := hi
    have hpc : ∀ c : CallerPc, c.waiting = none → (r.st i).caller ≠ c := fun c hc he => by
      rw [he, hc] at hw
      cases hw
    exact caller_goes_on (Or.inl hm) (hpc _ rfl) ha (fun he => absurd he (hpc _ rfl)) (hpc _ rfl)

theorem fills (b : Block) : LeadsTo (fun i => (r.st i).caller = .put b) fun i => ∃ j, i = j + 1 ∧ r.Fills b j := by
  refine r.by_caller (fun _ => 0) ?_ ?_ (.of_imp fun i hc => Or.inl ⟨_, .put hc, by rw [hc]; simp⟩)
  · intro i hc hs
    have hkept := caller_kept hs (by rw [hc]; simp)
    exact Or.inl ⟨hkept.trans hc, Nat.le_refl _⟩
  · intro i hc hs
    refine Or.inr ⟨i, rfl, hc, ?_⟩
    generalize r.st (i + 1) = s' at hs ⊢
    cases hs <;> simp_all

theorem returns : LeadsTo (fun i => (r.st i).caller.returning = true) fun i => (r.st i).caller = .idle := by
  have hpc : ∀ {i} (c : CallerPc), c.returning = false → (r.st i).caller.returning = true → (r.st i).caller ≠ c := by
    intro i c hc hr he
    rw [he, hc] at hr
    cases hr
  refine r.by_caller_free (fun i => (r.st i).caller.toRelease) ?_ (fun i hr hs => hs.returns hr) ?_
  · intro i hr hs
    have hkept := caller_kept hs fun b => hpc _ rfl hr
    exact Or.inl ⟨by rw [hkept]; exact hr, by rw [hkept]⟩
  · intro i hr hm
    exact caller_goes_on (Or.inl hm) (hpc _ rfl hr) (fun b => hpc _ rfl hr) (fun he => absurd he (hpc _ rfl hr)) (hpc _ rfl hr)

/-- A call of `write_to_queue` fills a slot, and returns. -/
theorem write_returns {i : Nat} (h : (r.st i).caller.waiting = some b) :
    ∃ j k, i ≤ j ∧ j < k ∧ r.Fills b j ∧ (r.st k).caller = .idle := by
  obtain ⟨_, hij, j, rfl, hj⟩ := ((r.gets_room b).trans ((r.puts b).trans (r.fills b))) i h
  obtain ⟨k, hjk, hk⟩ := r.returns (j + 1) (show (r.st (j + 1)).caller.returning = true by rw [hj.2.1]; rfl)
  rcases Nat.lt_or_eq_of_le hij with hlt | he
  · exact ⟨j, k, Nat.le_of_lt_succ hlt, hjk, hj, hk⟩
  · rw [he, hj.2.1] at h
    cases h

theorem gets_slots : LeadsTo (fun i => (r.st i).caller = .lockSlots) fun i => (r.st i).caller = .look := by
  refine r.by_caller_free (fun _ => 0) ?_ ?_ fun i hc hm => ⟨_, .lockSlots hc hm, by rw [hc]; simp⟩
  · intro i hc hs
    exact Or.inl ⟨(caller_kept hs (by rw [hc]; simp)).trans hc, Nat.le_refl _⟩
  · intro i hc hs
    right
    generalize r.st (i + 1) = s' at hs ⊢
    cases hs <;> simp_all

theorem looks : LeadsTo (fun i => (r.st i).caller = .look) fun i => ∃ j, i = j + 1 ∧ (r.st j).caller = .look ∧ (r.st i).caller = .unlock := by
  refine r.by_caller (fun _ => 0) ?_ ?_ (.of_imp fun i hc => Or.inl ⟨_, .look hc, by rw [hc]; simp⟩)
  · intro i hc hs
    have hkept := caller_kept hs (by rw [hc]; simp)
    exact Or.inl ⟨hkept.trans hc, Nat.le_refl _⟩
  · intro i hc hs
    refine Or.inr ⟨i, rfl, hc, ?_⟩
    generalize r.st (i + 1) = s' at hs ⊢
    cases hs <;> simp_all

/-- A call of `check_in_wcache` looks, and returns. -/
theorem check_returns : LeadsTo (fun i => (r.st i).caller = .lockSlots) fun i => (r.st i).caller = .idle :=
  (r.gets_slots.mono fun i hi => show (r.st i).caller.returning = true by rw [hi]; rfl).trans r.returns

end FairRun

/-! ## `logfs_close` -/

/-- On the way to the join. -/
def CallerPc.ending : CallerPc → Bool
  | .setDone | .closeItem | .closeSpace => true
  | _ => false

/-- Steps of `logfs_close` until the join. -/
def CallerPc.toJoin : CallerPc → Nat
  | .setDone => 2
  | .closeItem => 1
  | _ => 0

theorem CallerStep.ends (hs : CallerStep s s') (he : s.caller.ending = true) :
    (s'.caller.ending = true ∧ s'.caller.toJoin < s.caller.toJoin) ∨ s'.caller = .join := by
  cases hs <;> simp_all [CallerPc.ending, CallerPc.toJoin]

/-- Steps of the writer until it has left, when `done` is set. -/
def WriterPc.toExit : WriterPc → Nat
  | .exited => 0
  | .loop => 1
  | .leave | .write => 2
  | .checkDone | .unlock => 3
  | .test | .signalSpace => 4
  | _ => 5

/-- With `done` set a writer that has been signalled in time only goes on. -/
theorem WriterStep.toExit_lt (hs : WriterStep s s') (hd : s.done = true) (ha : s.writer ≠ .block) :
    s'.writer.toExit < s.writer.toExit ∧ (s.caller = .join → s'.caller = .join) := by
  cases hs <;> simp_all [WriterPc.toExit, Logfs.signalSpace]

namespace FairRun

variable (r : FairRun junk)

theorem awake (hlate : ∀ i, ¬ Late (r.st i) (r.st (i + 1))) (i : Nat) : Awake (r.st i) := by
  induction i with
  | zero =>
    intro hsig
    rw [r.start] at hsig
    cases hsig
  | succ i ih =>
    rcases r.next i with hs | hs | hs | hs
    · exact ih.caller_step (hlate i) hs
    · exact ih.writer_step (r.inv i) hs
    · rw [hs]
      exact ih
    · exact awake_of_spurious hs

theorem joins : LeadsTo (fun i => (r.st i).caller.ending = true) fun i => (r.st i).caller = .join := by
  have hpc : ∀ {i} (c : CallerPc), c.ending = false → (r.st i).caller.ending = true → (r.st i).caller ≠ c := by
    intro i c hc hr he
    rw [he, hc] at hr
    cases hr
  refine r.by_caller_free (fun i => (r.st i).caller.toJoin) ?_ (fun i hr hs => hs.ends hr) ?_
  · intro i hr hs
    have hkept := caller_kept hs fun b => hpc _ rfl hr
    exact Or.inl ⟨by rw [hkept]; exact hr, by rw [hkept]⟩
  · intro i hr hm
    exact caller_goes_on (Or.inl hm) (hpc _ rfl hr) (fun b => hpc _ rfl hr) (fun he => absurd he (hpc _ rfl hr)) (hpc _ rfl hr)

/-- The join waits for a writer that is on its way out. -/
theorem exits (hlate : ∀ i, ¬ Late (r.st i) (r.st (i + 1))) :
    LeadsTo (fun i => (r.st i).caller = .join) fun i => (r.st i).caller = .join ∧ (r.st i).writer = .exited := by
  have hrest : LeadsTo (fun i => (r.st i).caller = .join ∧ (r.st i).writer ≠ .exited)
      fun i => (r.st i).caller = .join ∧ (r.st i).writer = .exited := by
    have hawake : ∀ {i}, (r.st i).caller = .join → (r.st i).writer ≠ .block ∧ (r.st i).writer ≠ .asleep :=
      fun hc => r.awake hlate _ (by rw [hc]; rfl)
    refine r.by_writer_free (fun i => (r.st i).writer.toExit) ?_ ?_ ?_
    · intro i hi hs
      obtain ⟨hc, he⟩ := hi
      have hkept := writer_kept hs (hawake hc).2
      have hc' : (r.st (i + 1)).caller = .join := by
        generalize r.st (i + 1) = s' at hs ⊢
        rcases hs with hs | hs | hs
        · cases hs <;> simp_all
        · rw [hs, hc]
        · cases hs <;> simp_all
      exact Or.inl ⟨⟨hc', by rw [hkept]; exact he⟩, by rw [hkept]⟩
    · intro i hi hs
      obtain ⟨hc, he⟩ := hi
      obtain ⟨hlt, hc'⟩ := hs.toExit_lt (signalled_done (r.inv i) (by rw [hc]; rfl)) (hawake hc).1
      by_cases he' : (r.st (i + 1)).writer = .exited
      · exact Or.inr ⟨hc' hc, he'⟩
      · exact Or.inl ⟨⟨hc' hc, he'⟩, hlt⟩
    · intro i hi hm
      exact (r.inv i).writer_goes_on (Or.inl hm) (hawake hi.1).2 hi.2
  intro i hc
  by_cases he : (r.st i).writer = .exited
  · exact ⟨i, Nat.le_refl i, hc, he⟩
  · exact hrest i ⟨hc, he⟩

theorem close_returns (hlate : ∀ i, ¬ Late (r.st i) (r.st (i + 1))) :
    LeadsTo (fun i => (r.st i).caller = .setDone) fun i => (r.st i).caller = .joined := by
  have hjoin : LeadsTo (fun i => (r.st i).caller = .join ∧ (r.st i).writer = .exited) fun i => (r.st i).caller = .joined := by
    refine r.by_caller (fun _ => 0) ?_ ?_ (.of_imp fun i hi => Or.inl ⟨_, .join hi.1 hi.2, by rw [hi.1]; simp⟩)
    · intro i hi hs
      obtain ⟨hc, he⟩ := hi
      have hc' := (caller_kept hs (by rw [hc]; simp)).trans hc
      refine Or.inl ⟨⟨hc', ?_⟩, Nat.le_refl _⟩
      generalize r.st (i + 1) = s' at hs ⊢
      rcases hs with hs | hs | hs
      · cases hs <;> simp_all
      · rw [hs, he]
      · cases hs <;> simp_all
    · intro i hi hs
      right
      obtain ⟨hc, -⟩ := hi
      generalize r.st (i + 1) = s' at hs ⊢
      cases hs <;> simp_all
  have hending : LeadsTo (fun i => (r.st i).caller = .setDone) fun i => (r.st i).caller.ending = true := by
    refine .of_imp fun i hc => ?_
    rw [hc]
    rfl
  exact hending.trans (r.joins.trans ((r.exits hlate).trans hjoin))

/-- In every fair run a call of `write_to_queue` fills a slot with its block and returns, a
    call of `check_in_wcache` returns, and unless `logfs_close` signals late it returns. -/
theorem calls_return :
    (∀ i b, (r.st i).caller = .lock b → ∃ j k, i ≤ j ∧ j < k ∧ r.Fills b j ∧ (r.st k).caller = .idle) ∧
    LeadsTo (fun i => (r.st i).caller = .lockSlots) (fun i => (r.st i).caller = .idle) ∧
    ((∀ i, ¬ Late (r.st i) (r.st (i + 1))) →
      LeadsTo (fun i => (r.st i).caller = .setDone) fun i => (r.st i).caller = .joined) := by
  refine ⟨fun i b hc => r.write_returns ?_, r.check_returns, r.close_returns⟩
  rw [hc]
  rfl

end FairRun

/-! ## The blocks of the queue -/

/-- The block that a step puts into the queue: it is in the slot that `head` has left. -/
def putBy (s s' : ThreadSt) : List Block := if s'.wc.head = s.wc.head then [] else [s'.wc.slots s.wc.head]

/-- The block that a step takes out of it: it was in the slot that `tail` has left. -/
def takenBy (s s' : ThreadSt) : List Block := if s'.wc.tail = s.wc.tail then [] else [s.wc.slots s.wc.tail]

theorem putBy_enqueue (hwc : s'.wc = enqueue s.wc b) : putBy s s' = [b] := by
  have hne : (s.wc.head + 1) % 32 ≠ s.wc.head := by omega
  simp [putBy, hwc, enqueue, hne]

theorem takenBy_dequeue (hwc : s'.wc = (dequeue s.wc).2) : takenBy s s' = [s.wc.slots s.wc.tail] := by
  have hne : (s.wc.tail + 1) % 32 ≠ s.wc.tail := by omega
  simp [takenBy, hwc, dequeue, hne]

/-- The step is a device write. -/
abbrev Writes (s s' : ThreadSt) : Prop := s.writer = .write ∧ s'.writer = .loop

/-- The blocks that a run has put into the queue and taken out of it, and how far the writer
    is through with the latter: each device write is one more, wherever it goes. -/
structure Ledger where
  put : List Block
  taken : List Block
  through : List Block

def Ledger.next (l : Ledger) (s s' : ThreadSt) : Ledger :=
  { put := l.put ++ putBy s s'
    taken := l.taken ++ takenBy s s'
    through := l.through ++ if Writes s s' then l.taken.getLast?.toList else [] }

/-- The writer has a copy of the block taken last. -/
def WriterPc.copied : WriterPc → Bool
  | .signalSpace | .unlock | .write => true
  | _ => false

structure Ledger.Fits (junk : Nat → List UInt8) (s : ThreadSt) (l : Ledger) : Prop where
  queue : QueueReach junk ⟨s.wc, l.put, l.taken⟩
  copied : s.writer.copied = true → ∃ b, l.taken = l.through ++ [b]
  done : s.writer.copied = false → l.taken = l.through

variable {l : Ledger}

@[simp] theorem copied_signalItem (w : WriterPc) : (signalItem w).copied = w.copied := by cases w <;> rfl

/-- A step that the ledger does not note. -/
structure Unnoted (s s' : ThreadSt) : Prop where
  wc_eq : s'.wc = s.wc
  copied_eq : s'.writer.copied = s.writer.copied
  no_write : ¬ Writes s s'

theorem not_writes_of_kept (hw : s'.writer = s.writer) : ¬ Writes s s' := by
  intro h
  obtain ⟨h1, h2⟩ := h
  rw [hw, h1] at h2
  cases h2

theorem Unnoted.of_kept (hwc : s'.wc = s.wc) (hw : s'.writer = s.writer) : Unnoted s s' :=
  ⟨hwc, by rw [hw], not_writes_of_kept hw⟩

theorem Ledger.Fits.unnoted (h : l.Fits junk s) (hu : Unnoted s s') : (l.next s s').Fits junk s' := by
  have hnext : l.next s s' = l := by simp [Ledger.next, putBy, takenBy, hu.wc_eq, if_neg hu.no_write]
  rw [hnext]
  exact ⟨by rw [hu.wc_eq]; exact h.queue, by rw [hu.copied_eq]; exact h.copied, by rw [hu.copied_eq]; exact h.done⟩

theorem CallerStep.put_cases (hs : CallerStep s s') :
    Unnoted s s' ∨ ∃ b, s.caller = .put b ∧ s'.wc = enqueue s.wc b ∧ s'.writer = s.writer := by
  cases hs with
  | @put b hc => exact Or.inr ⟨b, hc, rfl, rfl⟩
  | signalItem _ | closeItem _ =>
    refine Or.inl ⟨rfl, copied_signalItem _, fun hw => ?_⟩
    obtain ⟨hw, hw'⟩ := hw
    simp [Logfs.signalItem, hw] at hw'
  | _ => exact Or.inl (.of_kept rfl rfl)

theorem Ledger.Fits.caller_step (h : l.Fits junk s) (hi : ThreadInv junk s) (hs : CallerStep s s') :
    (l.next s s').Fits junk s' := by
  rcases hs.put_cases with hu | ⟨b, hc, hwc, hw⟩
  · exact h.unnoted hu
  · have hroom : s.wc.activeBlks < 32 := by
      have hok := hi.caller
      rw [hc] at hok
      exact hok
    have hq := h.queue.step (.enqueue _ b (Nat.not_le.mpr hroom))
    have htaken : takenBy s s' = [] := by simp [takenBy, hwc, enqueue]
    have hnext : l.next s s' = { l with put := l.put ++ [b] } := by
      simp [Ledger.next, putBy_enqueue hwc, htaken, if_neg (not_writes_of_kept hw)]
    rw [hnext]
    exact ⟨by rw [hwc]; exact hq, by rw [hw]; exact h.copied, by rw [hw]; exact h.done⟩

theorem WriterStep.take_cases (hs : WriterStep s s') :
    Unnoted s s' ∨ (s.writer = .take ∧ s'.writer = .signalSpace ∧ ∃ b, takeBlock s.wc = .ok (b, s'.wc)) ∨
      (Writes s s' ∧ s'.wc = s.wc) := by
  cases hs with
  | take hw htake => exact Or.inr (Or.inl ⟨hw, rfl, _, htake⟩)
  | write hw => exact Or.inr (Or.inr ⟨⟨hw, rfl⟩, rfl⟩)
  | again hw | exit hw | lock hw | empty hw | ended hw | block hw | relock hw | isDone hw | notDone hw | leave hw
  | signalSpace hw | unlock hw => exact Or.inl ⟨rfl, by rw [hw]; rfl, by simp [Writes, hw]⟩

theorem Ledger.Fits.writer_step (h : l.Fits junk s) (hi : ThreadInv junk s) (hs : WriterStep s s') :
    (l.next s s').Fits junk s' := by
  rcases hs.take_cases with hu | ⟨hw, hw', b, htake⟩ | ⟨hwrites, hwc⟩
  · exact h.unnoted hu
  · have hsome : s.wc.activeBlks ≠ 0 := by
      have hok := hi.writer
      rw [hw] at hok
      exact hok
    have hq := h.queue.step (.dequeue _ b s'.wc (show ¬ s.wc.activeBlks ≤ 0 by omega) htake)
    rw [takeBlock_ok hsome] at htake
    simp only [Except.ok.injEq, Prod.mk.injEq] at htake
    obtain ⟨rfl, hwc⟩ := htake
    have hput : putBy s s' = [] := by simp [putBy, ← hwc, dequeue]
    have hnext : l.next s s' = { l with taken := l.taken ++ [s.wc.slots s.wc.tail] } := by
      simp [Ledger.next, hput, takenBy_dequeue hwc.symm, Writes, hw]
    rw [hnext]
    refine ⟨hq, fun _ => ⟨s.wc.slots s.wc.tail, ?_⟩, fun hc => ?_⟩
    · show l.taken ++ _ = l.through ++ _
      rw [h.done (by rw [hw]; rfl)]
    · rw [hw'] at hc
      cases hc
  · obtain ⟨b, hb⟩ := h.copied (by rw [hwrites.1]; rfl)
    have hnext : l.next s s' = { l with through := l.taken } := by
      simp [Ledger.next, putBy, takenBy, hwc, if_pos hwrites, hb]
    rw [hnext]
    refine ⟨by rw [hwc]; exact h.queue, fun hc => ?_, fun _ => rfl⟩
    rw [hwrites.2] at hc
    cases hc

theorem Quiet.unnoted (hs : Quiet s s') : Unnoted s s' := by
  rcases hs with rfl | hs
  · exact .of_kept rfl rfl
  · cases hs with
    | caller _ => exact .of_kept rfl rfl
    | writer hw => exact ⟨rfl, by rw [hw]; rfl, by simp [Writes]⟩

/-- Steps of the writer until it is through with a block, when there is one. -/
def WriterPc.toWrite : WriterPc → Nat
  | .write => 0
  | .unlock => 1
  | .signalSpace => 2
  | .take => 3
  | .checkDone => 4
  | .test => 5
  | .lock | .woken => 6
  | .loop => 7
  | _ => 8

theorem WriterStep.toWrite_lt (hs : WriterStep s s') (hd : s.done = false) (hsome : s.writer.copied = false → s.wc.activeBlks ≠ 0)
    (hr : s.writer.Ready) : Writes s s' ∨ (s'.writer.Ready ∧ s'.writer.toWrite < s.writer.toWrite) := by
  obtain ⟨h1, h2, h3⟩ := hr
  cases hs <;> simp_all [WriterPc.Ready, WriterPc.toWrite, WriterPc.copied, Writes]

namespace FairRun

variable (r : FairRun junk)

/-- What the run has done to the queue until this time. -/
def ledger : Nat → Ledger
  | 0 => ⟨[], [], []⟩
  | i + 1 => (ledger i).next (r.st i) (r.st (i + 1))

theorem ledger_fits (i : Nat) : (r.ledger i).Fits junk (r.st i) := by
  induction i with
  | zero =>
    rw [r.start]
    refine ⟨.start, fun hc => ?_, fun _ => rfl⟩
    cases hc
  | succ i ih =>
    rcases r.next i with hs | hs | hs
    · exact ih.caller_step (r.inv i) hs
    · exact ih.writer_step (r.inv i) hs
    · exact ih.unnoted hs.unnoted

theorem put_prefix {i j : Nat} (h : i ≤ j) : (r.ledger i).put <+: (r.ledger j).put := by
  induction j, h using Nat.le_induction with
  | base => exact List.prefix_refl _
  | succ j _ ih => exact ih.trans (List.prefix_append _ _)

theorem through_grows {i j : Nat} (h : i ≤ j) : (r.ledger i).through <+: (r.ledger j).through := by
  induction j, h using Nat.le_induction with
  | base => exact List.prefix_refl _
  | succ j _ ih => exact ih.trans (List.prefix_append _ _)

theorem through_prefix (i : Nat) : (r.ledger i).through <+: (r.ledger i).put := by
  have hfits := r.ledger_fits i
  have htaken : (r.ledger i).taken <+: (r.ledger i).put := by
    have htaken : (r.ledger i).taken = (r.ledger i).put.take (r.ledger i).taken.length := (queueInv hfits.queue).taken
    rw [htaken]
    exact List.take_prefix _ _
  cases hc : (r.st i).writer.copied with
  | false =>
    rw [← hfits.done hc]
    exact htaken
  | true =>
    obtain ⟨b, hb⟩ := hfits.copied hc
    rw [hb] at htaken
    exact (List.prefix_append _ _).trans htaken

/-- At this time the writer is through with `m` blocks and more are put. -/
def Owes (m i : Nat) : Prop := (r.ledger i).through.length = m ∧ m < (r.ledger i).put.length

variable {r} {m i : Nat}

theorem Owes.kept (h : r.Owes m i) (hno : ¬ Writes (r.st i) (r.st (i + 1))) : r.Owes m (i + 1) := by
  have hw : (r.ledger (i + 1)).through = (r.ledger i).through := by simp [ledger, Ledger.next, if_neg hno]
  have hp := (r.put_prefix (Nat.le_succ i)).length_le
  exact ⟨by rw [hw]; exact h.1, Nat.lt_of_lt_of_le h.2 hp⟩

theorem Owes.paid (h : r.Owes m i) (hw : Writes (r.st i) (r.st (i + 1))) : m < (r.ledger (i + 1)).through.length := by
  obtain ⟨b, hb⟩ := (r.ledger_fits i).copied (by rw [hw.1]; rfl)
  simp [ledger, Ledger.next, if_pos hw, hb, h.1]

/-- Of what is owed and not copied the queue has some. -/
theorem Owes.active (h : r.Owes m i) (hc : (r.st i).writer.copied = false) : (r.st i).wc.activeBlks ≠ 0 := by
  have hfits := r.ledger_fits i
  have hcount : (r.ledger i).taken.length + (r.st i).wc.activeBlks = (r.ledger i).put.length :=
    (queueInv hfits.queue).fifo.active
  have hlen := congrArg List.length (hfits.done hc)
  have hm := h.1
  have hlt := h.2
  omega

theorem Owes.ready (h : r.Owes m i) (hd : (r.st i).done = false) :
    (r.st i).writer.Ready ∨ ((r.st i).writer = .asleep ∧ (r.st i).caller = .signalItem) := by
  have hok := (r.inv i).writer
  by_cases hw : (r.st i).writer = .asleep
  · rw [hw] at hok
    exact Or.inr ⟨hw, hok.resolve_left (h.active (by rw [hw]; rfl))⟩
  · refine Or.inl ⟨hw, fun hb => ?_, fun he => ?_⟩
    · rw [hb] at hok
      have hc : (r.st i).caller = .signalItem := hok.resolve_left (h.active (by rw [hb]; rfl))
      exact (r.inv i).locked.not_both (by rw [hc]; rfl) (by rw [hb]; rfl)
    · rw [he] at hok
      exact absurd (hd.symm.trans hok) (by decide)

variable (r)

/-- The signal for a block that is owed wakes the writer up. -/
theorem gets_ready (hopen : ∀ i, (r.st i).done = false) (m : Nat) :
    LeadsTo (r.Owes m) fun i => r.Owes m i ∧ (r.st i).writer.Ready := by
  have hwake : LeadsTo (fun i => r.Owes m i ∧ (r.st i).writer = .asleep ∧ (r.st i).caller = .signalItem)
      fun i => r.Owes m i ∧ (r.st i).writer.Ready := by
    have hno : ∀ {i}, (r.st i).writer = .asleep → ¬ Writes (r.st i) (r.st (i + 1)) := by
      intro i hw h
      have hwrite := h.1
      rw [hw] at hwrite
      cases hwrite
    refine r.by_caller (fun _ => 0) ?_ ?_ (.of_imp fun i hi => Or.inl ⟨_, .signalItem hi.2.2, by rw [hi.2.2]; simp⟩)
    · intro i hi hs
      obtain ⟨ho, hw, hc⟩ := hi
      have ho' := ho.kept (hno hw)
      generalize r.st (i + 1) = s' at hs ⊢
      rcases hs with hs | hs | hs
      · cases hs <;> simp_all
      · rw [hs]
        exact Or.inl ⟨⟨ho', hw, hc⟩, Nat.le_refl _⟩
      · cases hs with
        | caller hc' => simp_all
        | writer _ => exact Or.inr ⟨ho', by simp, by simp, by simp⟩
    · intro i hi hs
      obtain ⟨ho, hw, hc⟩ := hi
      have ho' := ho.kept (hno hw)
      right
      refine ⟨ho', ?_⟩
      generalize r.st (i + 1) = s' at hs ⊢
      cases hs <;> simp_all [WriterPc.Ready, Logfs.signalItem]
  intro i hi
  rcases hi.ready (hopen i) with hr | hs
  · exact ⟨i, Nat.le_refl i, hi, hr⟩
  · exact hwake i ⟨hi, hs⟩

theorem pays (hopen : ∀ i, (r.st i).done = false) (m : Nat) : LeadsTo (r.Owes m) fun i => m < (r.ledger i).through.length := by
  refine (r.gets_ready hopen m).trans (r.by_writer_free (fun i => (r.st i).writer.toWrite) ?_ ?_ ?_)
  · intro i hi hs
    obtain ⟨ho, hr⟩ := hi
    have hkept := writer_kept hs hr.1
    have hno : ¬ Writes (r.st i) (r.st (i + 1)) := not_writes_of_kept hkept
    exact Or.inl ⟨⟨ho.kept hno, by rw [hkept]; exact hr⟩, by rw [hkept]⟩
  · intro i hi hs
    obtain ⟨ho, hr⟩ := hi
    by_cases hw : Writes (r.st i) (r.st (i + 1))
    · exact Or.inr (ho.paid hw)
    · have hlt := (hs.toWrite_lt (hopen i) ho.active hr).resolve_left hw
      exact Or.inl ⟨⟨ho.kept hw, hlt.1⟩, hlt.2⟩
  · intro i hi hm
    exact (r.inv i).writer_goes_on (Or.inl hm) hi.2.1 hi.2.2.2

theorem all_through (hopen : ∀ i, (r.st i).done = false) (i : Nat) : ∃ j, i ≤ j ∧ (r.ledger i).put <+: (r.ledger j).through := by
  have hall : LeadsTo (fun j => i ≤ j) fun j => i ≤ j ∧ (r.ledger i).put.length ≤ (r.ledger j).through.length := by
    refine .by_measure (fun j => (r.ledger i).put.length - (r.ledger j).through.length) fun n => ?_
    intro j hj
    obtain ⟨hij, hn⟩ := hj
    have hle := (r.put_prefix hij).length_le
    by_cases hdone : (r.ledger i).put.length ≤ (r.ledger j).through.length
    · exact ⟨j, Nat.le_refl j, Or.inr ⟨hij, hdone⟩⟩
    · obtain ⟨k, hjk, hk⟩ := r.pays hopen _ j ⟨rfl, by omega⟩
      exact ⟨k, hjk, Or.inl ⟨Nat.le_trans hij hjk, by omega⟩⟩
  obtain ⟨j, -, hij, hj⟩ := hall i (Nat.le_refl i)
  exact ⟨j, hij, List.prefix_of_prefix_length_le (r.put_prefix hij) (r.through_prefix j) hj⟩

end FairRun

/-! ## There are fair runs -/

/-- No thread can go on. -/
def AtRest (s : ThreadSt) : Prop := (∀ s', ¬ GoesOn s s') ∧ ∀ s', ¬ WriterStep s s'

def InTime (s s' : ThreadSt) : Prop := ThreadStep s s' ∧ ¬ Late s s'

/-- Steps to a state of rest are a fair run. -/
theorem exists_fairRun {t : ThreadSt} (hs : Relation.ReflTransGen InTime (threadsOpen junk) s)
    (ht : Relation.ReflTransGen InTime s t) (hrest : AtRest t) :
    ∃ r : FairRun junk, IsRun InTime r.st ∧ ∃ n m, r.st n = s ∧ ∀ i, r.st (n + (m + i)) = t := by
  have hconst : IsRun InTime fun _ => t := isRun_const t
  obtain ⟨run', m, hrun', h0', hm⟩ := hconst.after ht
  rw [← h0'] at hs
  obtain ⟨run, n, hrun, h0, hn⟩ := hrun'.after hs
  have hend : ∀ i, run (n + (m + i)) = t := fun i => by rw [hn, hm]
  have hrests : ∀ j, n + m ≤ j → run j = t := by
    intro j hj
    obtain ⟨i, rfl⟩ := Nat.exists_eq_add_of_le hj
    rw [Nat.add_assoc]
    exact hend i
  refine ⟨⟨run, h0, fun i => ?_, .of_rest (n := n + m) ?_, .of_rest (n := n + m) ?_⟩, hrun, n, m, ?_, hend⟩
  · rcases hrun i with ⟨hs, -⟩ | hs
    · cases hs with
      | caller hs => exact Or.inl hs
      | writer hs => exact Or.inr (Or.inl hs)
      | spurious hs => exact Or.inr (Or.inr (Or.inr hs))
    · exact Or.inr (Or.inr (Or.inl hs))
  · intro j hj h
    rw [hrests j hj] at h
    obtain ⟨s', hs⟩ := h
    exact hrest.1 s' hs
  · intro j hj h
    rw [hrests j hj] at h
    obtain ⟨s', hs⟩ := h
    exact hrest.2 s' hs
  · rw [← h0']
    exact hn 0

theorem atRest (hc : s.caller = .idle ∨ s.caller = .joined) (hw : s.writer = .asleep ∨ s.writer = .exited) : AtRest s := by
  refine ⟨fun s' hs => ?_, fun s' hs => ?_⟩
  · obtain ⟨hs, hne⟩ := hs
    have hj := hc.resolve_left hne
    cases hs <;> simp_all
  · cases hs <;> simp_all

theorem InTime.caller (hs : CallerStep s s') (hw : s.writer ≠ .block) : InTime s s' := ⟨.caller hs, fun hl => hw hl.2.2⟩

theorem InTime.writer (hs : WriterStep s s') : InTime s s' := by
  refine ⟨.writer hs, fun hl => ?_⟩
  obtain ⟨hc, hc', -⟩ := hl
  cases hs <;> simp_all [Logfs.signalSpace]

/-- The log is closed while the writer is asleep. -/
theorem calls_return_at_close : ∃ r : FairRun (fun _ => []), ∃ i j, (r.st i).caller = .setDone ∧ i ≤ j ∧ (r.st j).caller = .joined := by
  have h1 := Relation.ReflTransGen.single (InTime.writer (.again (s := threadsOpen fun _ => []) rfl rfl))
  have h2 := h1.tail (.writer (.lock rfl rfl))
  have h3 := h2.tail (.writer (.empty rfl ⟨rfl, Nat.le_refl 0⟩))
  have h4 := h3.tail (.writer (.block rfl))
  have h5 := h4.tail (.caller (.close rfl) (by decide))
  have g1 := Relation.ReflTransGen.single (InTime.caller (.setDone (s := { threadsOpen (fun _ => []) with mutex := none, writer := .asleep, caller := .setDone }) rfl) (by decide))
  have g2 := g1.tail (.caller (.closeItem rfl) (by decide))
  have g3 := g2.tail (.caller (.closeSpace rfl) (by decide))
  have g4 := g3.tail (.writer (.relock rfl rfl))
  have g5 := g4.tail (.writer (.ended rfl (show ¬ (true = false ∧ 0 ≤ 0) by decide)))
  have g6 := g5.tail (.writer (.isDone rfl rfl))
  have g7 := g6.tail (.writer (.leave rfl))
  have g8 := g7.tail (.writer (.exit rfl rfl))
  have g9 := g8.tail (.caller (.join rfl rfl) (by decide))
  obtain ⟨r, hrun, n, m, hn, -⟩ := exists_fairRun h5 g9 (atRest (Or.inr rfl) (Or.inr rfl))
  have hlate : ∀ i, ¬ Late (r.st i) (r.st (i + 1)) := by
    intro i hl
    rcases hrun i with hs | hs
    · exact hs.2 hl
    · obtain ⟨hc, hc', -⟩ := hl
      rw [hs, hc] at hc'
      cases hc'
  have hset : (r.st n).caller = .setDone := by rw [hn]
  obtain ⟨j, hnj, hj⟩ := r.calls_return.2.2 hlate n hset
  exact ⟨r, n, j, hset, hnj, hj⟩

end Cs238p.Logfs
